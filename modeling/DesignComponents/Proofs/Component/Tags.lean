import DesignComponents.Proofs.Component.Naming
import DesignComponents.Proofs.Identifier.Numbering

/-! The tags of a scene. Nodes that ask for names one after the other are numbered in that order.
So in every compilation the tags are those of the tree in depth-first order: a node's base, with
the number of nodes before it that have the same base. -/

namespace DesignComponents

open Identifier (Namespace Request Table uses)

namespace Tree

/-- The base of a node's name in a namespace. -/
def nodeBase (space : Namespace) (n : NodeId × Node) : String := space.normalize n.2.name

/-- The wish of a node for a name in a namespace. -/
def nodeRequest (space : Namespace) (n : NodeId × Node) : Request := ⟨space, .node n.1, n.2.name⟩

/-- What the node at a place needs a name for. -/
def nodeKey (space : Namespace) (i : NodeId) : Namespace × Identifier.Entity := (space, .node i)

theorem nodeKey_injective (space : Namespace) : Function.Injective (nodeKey space) := fun i j he => by
  cases he
  rfl

theorem map_key_nodeRequest (space : Namespace) (nodes : List (NodeId × Node)) :
    (nodes.map (nodeRequest space)).map Request.key = (nodes.map Prod.fst).map (nodeKey space) := by
  rw [List.map_map, List.map_map]
  rfl

/-- Nodes in different places use up one name of their base each. -/
theorem uses_map_nodeRequest {space : Namespace} (hs : Table.reserved space = [])
    {nodes : List (NodeId × Node)} (h : (nodes.map Prod.fst).Nodup) (base : String) :
    uses (nodes.map (nodeRequest space)) space base =
      nodes.countP fun n => nodeBase space n = base := by
  have hkeys : ((nodes.map (nodeRequest space)).map Request.key).Nodup := by
    rw [map_key_nodeRequest]
    exact h.map (nodeKey_injective space)
  rw [uses, firsts_eq_self hkeys, List.countP_map, hs, if_neg List.not_mem_nil, Nat.add_zero]
  refine List.countP_congr fun n _ => ?_
  simp only [Function.comp_apply, decide_eq_true_eq]
  exact and_iff_right rfl

/-- Where nothing is reserved, a node gets its base with the number of nodes that came with the same
base before. -/
theorem lookup_nodeRequest (space : Namespace) (hs : Table.reserved space = [])
    {nodes before after : List (NodeId × Node)} {n : NodeId × Node}
    (h : (nodes.map Prod.fst).Nodup) (hn : nodes = before ++ n :: after) :
    (Table.empty.assignAll (nodes.map (nodeRequest space))).lookup space (.node n.1) =
      some (Table.numbered (nodeBase space n)
        (before.countP fun m => nodeBase space m = nodeBase space n)) := by
  rw [hn, List.map_append, List.map_cons, List.nodup_append] at h
  obtain ⟨hbefore, -, hdisjoint⟩ := h
  have hnew : (nodeRequest space n).key ∉ (before.map (nodeRequest space)).map Request.key := by
    rw [map_key_nodeRequest]
    intro hm
    obtain ⟨i, hi, he⟩ := List.mem_map.mp hm
    exact hdisjoint i hi n.1 List.mem_cons_self (nodeKey_injective space he)
  have hname := Table.lookup_assign_of_notMem hnew
  rw [hn, List.map_append, List.map_cons, Table.assignAll_append, Table.assignAll_cons,
    ← uses_map_nodeRequest hs hbefore]
  exact Table.lookup_assignAll_of_some hname _

/-- The base of a node's tag. -/
def tagBase (n : NodeId × Node) : String := nodeBase .tag n

/-- The tag of a node is its base with the number of equal bases before it. -/
theorem tagOf_plan_eq {t : Tree} (h : t.ids.Nodup) (o : Options) (s : Snapshot)
    {before after : List (NodeId × Node)} {n : NodeId × Node}
    (ht : t.preorder = before ++ n :: after) :
    (t.plan o s).tagOf n.1 =
      Table.numbered (tagBase n) (before.countP fun m => tagBase m = tagBase n) := by
  rw [tagOf_plan, Table.tagOf]
  exact Table.nameOf_eq (lookup_nodeRequest .tag rfl h ht)

/-- Whatever a node is called, its base ends in a part of its own. -/
theorem dash_mem_tagBase (n : NodeId × Node) : '-' ∈ (tagBase n).toList := by
  have hending : '-' ∈ Namespace.tag.ending := by decide
  rw [tagBase, nodeBase, Namespace.normalize, String.toList_ofList, Namespace.ended]
  split_ifs with h
  · exact (List.isSuffixOf_iff_suffix.mp h).subset hending
  · exact List.mem_append_right _ hending

theorem dash_mem_tagOf_plan {t : Tree} (h : t.ids.Nodup) (o : Options) (s : Snapshot) {i : NodeId}
    (hi : i ∈ t.ids) : '-' ∈ ((t.plan o s).tagOf i).toList := by
  obtain ⟨n, hn, rfl⟩ := List.mem_map.mp hi
  obtain ⟨before, after, ht⟩ := List.append_of_mem hn
  rw [tagOf_plan_eq h o s ht]
  exact Table.mem_toList_numbered (dash_mem_tagBase n) _

end Tree

namespace Scene

/-- Names are numbered without gaps. A thing that comes for the first time gets its base, or the
base with the number of different things that came with the base before, the base itself being
counted where it is reserved; the search for the name ends, and no numbered name is a base. So
in every compilation the tag of a node has the number of nodes before it with its base. -/
theorem names_numbered :
    (∀ (rs : List Request) (r : Request), r.key ∉ rs.map Request.key →
      ((Table.empty.assignAll rs).assign r).lookup r.space r.entity =
        some (Table.numbered r.base (uses rs r.space r.base))) ∧
    (∀ (names : Table) (space : Namespace) (base : String), ∃ k,
      names.fresh space base = Table.numbered base k ∧
        Table.numbered base k ∉ names.taken space ∧
        ∀ j < k, Table.numbered base j ∈ names.taken space) ∧
    (∀ (space space' : Namespace) (raw raw' : String) (k : Nat),
      Table.numbered (space.normalize raw) (k + 1) ≠ space'.normalize raw') ∧
    ∀ scene : Scene, scene.Built → ∀ r, scene.root = some r → ∀ (s : Snapshot) (o : Options),
      ∃ t, scene.rootTree? = some t ∧ scene.components s o = .ok (t.components o s) ∧
        t.preorder.map Prod.fst = scene.descendants scene.size r ∧
        ∀ before n after, t.preorder = before ++ n :: after →
          (t.plan o s).tagOf n.1 =
            Table.numbered (Namespace.tag.normalize n.2.name)
              (before.countP fun m =>
                Namespace.tag.normalize m.2.name = Namespace.tag.normalize n.2.name) := by
  refine ⟨fun rs r => Table.lookup_assign_of_notMem, Table.exists_fresh_eq,
    Table.numbered_succ_ne_normalize, fun scene hb r hr s o => ?_⟩
  obtain ⟨t, ht, hsh, rfl⟩ := hb.forest.rootTree?_shows hr
  refine ⟨t, ht, components_of_rootTree? ht s o, ?_, fun before n after hn => ?_⟩
  · exact (hsh.descendants_eq hb.forest (Nat.le_refl _)).symm
  · exact Tree.tagOf_plan_eq (hsh.nodup_ids hb.forest) o s hn

theorem cardPage_names_numbered :
    (((Table.empty.assignAll [⟨.member, .variable "v", "styles"⟩, ⟨.tag, .node 0, "Styles"⟩]).assign
      ⟨.member, .placeholder "styles", "Styles"⟩).lookup .member (.placeholder "styles") =
        some "styles_2") ∧
      cardPage.Built ∧ cardPage.root = some 0 ∧
      ∃ t, cardPage.rootTree? = some t ∧
        cardPage.components .empty ⟨.multi, .flat, .inline⟩ =
          .ok (t.components ⟨.multi, .flat, .inline⟩ .empty) ∧
        t.preorder.map Prod.fst = cardPage.descendants cardPage.size 0 ∧
        ∀ before n after, t.preorder = before ++ n :: after →
          (t.plan ⟨.multi, .flat, .inline⟩ .empty).tagOf n.1 =
            Table.numbered (Namespace.tag.normalize n.2.name)
              (before.countP fun m =>
                Namespace.tag.normalize m.2.name = Namespace.tag.normalize n.2.name) :=
  ⟨(names_numbered.1 _ ⟨.member, .placeholder "styles", "Styles"⟩ (by decide)).trans (by decide),
    cardPage_built, rfl, names_numbered.2.2.2 cardPage cardPage_built 0 rfl .empty _⟩

end Scene

end DesignComponents
