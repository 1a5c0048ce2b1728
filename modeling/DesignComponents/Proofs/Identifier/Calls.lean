import DesignComponents.Component.Compile
import DesignComponents.Proofs.Identifier.Consistency
import Mathlib.Data.List.Dedup

/-! Tables in use. Callers assign names, look them up and tag the nodes of scenes, in any order
and with any texts. Whatever they do, things of one namespace have different names, a name that
was answered once stays, and the size of the table is the number of things with a name. -/

namespace DesignComponents.Identifier

/-- What callers do with a table. Callers that tag a tree at the same time take turns node by
node, as if each of them tagged single nodes. -/
inductive Call where
  | assign (r : Request)
  | lookup (space : Namespace) (entity : Entity)
  | tag (scene : Scene) (id : NodeId)
  | assignTags (scene : Scene) (start : NodeId)

namespace Call

/-- The table after a call. A place without a node changes nothing. -/
def run (t : Table) : Call → Table
  | assign r => t.assign r
  | lookup _ _ => t
  | tag scene id =>
    match scene.get? id with
    | some slot => t.assign (Tree.tagRequest (id, slot.node))
    | none => t
  | assignTags scene start =>
    match scene.tree? start with
    | some tree => tree.planTags t
    | none => t

/-- The requests that a call makes, in order. -/
def requests : Call → List Request
  | assign r => [r]
  | lookup _ _ => []
  | tag scene id => ((scene.get? id).map fun slot => Tree.tagRequest (id, slot.node)).toList
  | assignTags scene start =>
    ((scene.tree? start).map fun tree => tree.preorder.map Tree.tagRequest).getD []

theorem run_eq (t : Table) (c : Call) : c.run t = t.assignAll c.requests := by
  cases c with
  | assign r => rfl
  | lookup space entity => rfl
  | tag scene id => cases h : scene.get? id <;> simp [run, requests, h]
  | assignTags scene start =>
    cases h : scene.tree? start <;> simp [run, requests, h, Tree.planTags]

/-- The things that a call assigns names to. -/
def assigned (c : Call) : List (Namespace × Entity) := c.requests.map Request.key

end Call

namespace Table

def run (t : Table) (cs : List Call) : Table := cs.foldl Call.run t

@[simp] theorem run_nil (t : Table) : t.run [] = t := rfl

@[simp] theorem run_cons (t : Table) (c : Call) (cs : List Call) :
    t.run (c :: cs) = (c.run t).run cs := rfl

theorem run_append (t : Table) (cs cs' : List Call) : t.run (cs ++ cs') = (t.run cs).run cs' :=
  List.foldl_append

theorem run_eq_assignAll (t : Table) (cs : List Call) :
    t.run cs = t.assignAll (cs.flatMap Call.requests) := by
  induction cs generalizing t with
  | nil => rfl
  | cons c cs ih => rw [run_cons, ih, Call.run_eq, List.flatMap_cons, assignAll_append]

theorem map_key_requests (cs : List Call) :
    (cs.flatMap Call.requests).map Request.key = cs.flatMap Call.assigned := List.map_flatMap

/-- The name that an assignment answers: the name from before, or a fresh one. -/
def answer (t : Table) (r : Request) : String :=
  (t.lookup r.space r.entity).getD (t.fresh r.space r.base)

theorem lookup_assign_self (t : Table) (r : Request) :
    (t.assign r).lookup r.space r.entity = some (t.answer r) := by
  rw [lookup_assign, if_pos ⟨rfl, rfl⟩]
  rfl

theorem lookup_run_of_some {t : Table} {space : Namespace} {entity : Entity} {name : String}
    (h : t.lookup space entity = some name) (cs : List Call) :
    (t.run cs).lookup space entity = some name := by
  rw [run_eq_assignAll]
  exact lookup_assignAll_of_some h _

theorem size_eq_length_dedup {t : Table} (h : t.Consistent) {ks : List (Namespace × Entity)}
    (hk : ∀ k, k ∈ t.keys ↔ k ∈ ks) : t.size = ks.dedup.length := by
  have hperm : t.keys.Perm ks.dedup :=
    (List.perm_ext_iff_of_nodup h.nodup_keys (List.nodup_dedup ks)).mpr fun k => by
      rw [hk, List.mem_dedup]
  rw [← hperm.length_eq, keys, List.length_map, size]

/-- What callers can rely on after some calls. -/
structure Reliable (cs : List Call) : Prop where
  /-- Exactly the things that were assigned have a name. -/
  named : ∀ space entity,
    ((empty.run cs).lookup space entity).isSome = true ↔ (space, entity) ∈ cs.flatMap Call.assigned
  distinct : ∀ space entity entity' name, (empty.run cs).lookup space entity = some name →
    (empty.run cs).lookup space entity' = some name → entity = entity'
  /-- An assignment answers the name that is looked up afterwards. -/
  answered : ∀ r : Request,
    (empty.run (cs ++ [.assign r])).lookup r.space r.entity = some ((empty.run cs).answer r)
  /-- Later calls change no name, and assigning it again, with any text, answers it again. -/
  kept : ∀ space entity name, (empty.run cs).lookup space entity = some name → ∀ cs',
    (empty.run (cs ++ cs')).lookup space entity = some name ∧
      ∀ raw, (empty.run (cs ++ cs')).answer ⟨space, entity, raw⟩ = name
  /-- An assignment touches nothing but the thing it is for. -/
  separate : ∀ (r : Request) space entity, (space, entity) ≠ r.key →
    (empty.run (cs ++ [.assign r])).lookup space entity = (empty.run cs).lookup space entity
  unreserved : ∀ entity name, (empty.run cs).lookup .member entity = some name →
    name ∉ reservedMembers
  ne_empty : ∀ space entity name, (empty.run cs).lookup space entity = some name → name ≠ ""
  size_eq : (empty.run cs).size = (cs.flatMap Call.assigned).dedup.length

theorem run_reliable (cs : List Call) : Reliable cs := by
  have hc : (empty.run cs).Consistent := by
    rw [run_eq_assignAll]
    exact consistent_empty.assignAll _
  have hkeys : ∀ k, k ∈ (empty.run cs).keys ↔ k ∈ cs.flatMap Call.assigned := by
    intro k
    rw [run_eq_assignAll, mem_keys_assignAll_empty, map_key_requests]
  constructor
  case named => exact fun space entity => isSome_lookup_iff.trans (hkeys (space, entity))
  case distinct => exact fun space entity entity' name => hc.entity_unique
  case answered =>
    intro r
    rw [run_append]
    exact lookup_assign_self _ r
  case kept =>
    intro space entity name hn cs'
    have hn' := lookup_run_of_some hn cs'
    rw [run_append]
    exact ⟨hn', fun raw => by rw [answer, hn', Option.getD_some]⟩
  case separate =>
    intro r space entity hne
    rw [run_append]
    show ((empty.run cs).assign r).lookup space entity = _
    rw [lookup_assign, if_neg]
    rintro ⟨rfl, rfl⟩
    exact hne rfl
  case unreserved => exact fun entity name => hc.notMem_reserved
  case ne_empty => exact fun space entity name => hc.ne_empty
  case size_eq => exact size_eq_length_dedup hc hkeys

end Table

end DesignComponents.Identifier
