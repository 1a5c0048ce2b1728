import DesignComponents.Proofs.Identifier.Assignment
import Mathlib.Logic.Function.Basic

/-! Tables about scenes whose nodes are at other places. Places tell nodes apart and do nothing
else in a table: requests about moved nodes give the names that requests about the nodes give. -/

namespace DesignComponents.Identifier

/-- The same entity with its node at another place. -/
def Entity.relabel (f : NodeId → NodeId) : Entity → Entity
  | node id => node (f id)
  | .variable id => .variable id
  | property key => property key
  | placeholder name => placeholder name
  | event id trigger => event (f id) trigger

def Request.relabel (f : NodeId → NodeId) (r : Request) : Request :=
  { r with entity := r.entity.relabel f }

def Entry.relabel (f : NodeId → NodeId) (e : Entry) : Entry :=
  { e with entity := e.entity.relabel f }

def Table.relabel (f : NodeId → NodeId) (t : Table) : Table := ⟨t.entries.map (Entry.relabel f)⟩

variable {f : NodeId → NodeId}

theorem Entity.relabel_injective (hf : Function.Injective f) :
    Function.Injective (Entity.relabel f) := by
  intro a b h
  cases a <;> cases b <;> simp_all [Entity.relabel, hf.eq_iff]

namespace Table

@[simp] theorem relabel_empty : empty.relabel f = empty := rfl

theorem lookup_relabel (hf : Function.Injective f) (t : Table) (space : Namespace)
    (entity : Entity) : (t.relabel f).lookup space (entity.relabel f) = t.lookup space entity := by
  have hcond : (fun e : Entry => decide (e.space = space) && decide (e.entity = entity.relabel f)) ∘
      Entry.relabel f = fun e => decide (e.space = space) && decide (e.entity = entity) := by
    funext e
    rw [Function.comp_apply, Bool.eq_iff_iff]
    simp only [Bool.and_eq_true, decide_eq_true_eq]
    exact and_congr_right fun _ => (Entity.relabel_injective hf).eq_iff
  rw [lookup, relabel, List.find?_map, hcond, Option.map_map]
  rfl

theorem taken_relabel (t : Table) (space : Namespace) : (t.relabel f).taken space = t.taken space := by
  rw [taken, relabel, List.filter_map, List.map_map]
  rfl

theorem fresh_relabel (t : Table) (space : Namespace) (base : String) :
    (t.relabel f).fresh space base = t.fresh space base := by
  rw [fresh, taken_relabel, fresh]

theorem assign_relabel (hf : Function.Injective f) (t : Table) (r : Request) :
    (t.relabel f).assign (r.relabel f) = (t.assign r).relabel f := by
  have hlookup : (t.relabel f).lookup (r.relabel f).space (r.relabel f).entity =
      t.lookup r.space r.entity := lookup_relabel hf t r.space r.entity
  rw [assign, hlookup, assign]
  cases t.lookup r.space r.entity with
  | some name => rfl
  | none =>
    simp only [fresh_relabel]
    rfl

theorem assignAll_relabel (hf : Function.Injective f) (t : Table) (rs : List Request) :
    (t.relabel f).assignAll (rs.map (Request.relabel f)) = (t.assignAll rs).relabel f := by
  induction rs generalizing t with
  | nil => rfl
  | cons r rs ih => rw [List.map_cons, assignAll_cons, assign_relabel hf, ih, assignAll_cons]

theorem nameOf_relabel (hf : Function.Injective f) (t : Table) (space : Namespace)
    (entity : Entity) : (t.relabel f).nameOf space (entity.relabel f) = t.nameOf space entity := by
  rw [nameOf, lookup_relabel hf, nameOf]

theorem tagOf_relabel (hf : Function.Injective f) (t : Table) (id : NodeId) :
    (t.relabel f).tagOf (f id) = t.tagOf id :=
  nameOf_relabel hf t .tag (.node id)

end Table

end DesignComponents.Identifier
