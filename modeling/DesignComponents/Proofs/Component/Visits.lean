import DesignComponents.Proofs.Component.Naming
import DesignComponents.Proofs.Identifier.Separation

/-! The course of a compilation. Every component is opened, then all that is inside of it is
visited, and then it is closed: sites are listed in the order of openings and starts in the order
of closings. Members are named at openings and classes at closings, which gives the same names as
the plan, where all members come before all classes. -/

namespace DesignComponents

open Identifier (Entity Namespace Request Table)

inductive Visit where
  | opening (site : Site)
  | closing (site : Site)

namespace Visit

def opened? : Visit → Option Site
  | opening site => some site
  | closing _ => none

def closed? : Visit → Option (NodeId × Node)
  | opening _ => none
  | closing site => some (site.tree.id, site.tree.node)

/-- What is named at a visit, when the tags are known. -/
def requests (o : Options) (s : Snapshot) (tags : Table) : Visit → List Request
  | opening site => site.memberRequests o s tags
  | closing site => [Tree.classRequest (site.tree.id, site.tree.node)]

end Visit

namespace Tree

mutual

/-- The visits inside the tree. -/
def nestedVisits (o : Options) (scope : Scope) : Tree → List Visit
  | branch _ node children => nestedVisitsAll o (scope.enter node) children
  | leaf _ _ => []

def nestedVisitsAll (o : Options) (scope : Scope) : List Tree → List Visit
  | [] => []
  | t :: ts =>
    (if o.isBoundary t.node then
      .opening ⟨scope, t⟩ :: nestedVisits o scope t ++ [.closing ⟨scope, t⟩]
    else nestedVisits o scope t) ++ nestedVisitsAll o scope ts

end

/-- The visits of a component that starts here. -/
def visits (o : Options) (scope : Scope) (t : Tree) : List Visit :=
  .opening ⟨scope, t⟩ :: t.nestedVisits o scope ++ [.closing ⟨scope, t⟩]

/-- The visits at a child and inside of it. -/
def childVisits (o : Options) (scope : Scope) (t : Tree) : List Visit :=
  if o.isBoundary t.node then t.visits o scope else t.nestedVisits o scope

theorem nestedVisitsAll_eq (o : Options) (scope : Scope) (ts : List Tree) :
    nestedVisitsAll o scope ts = ts.flatMap (childVisits o scope) := by
  induction ts with
  | nil => rfl
  | cons t ts ih =>
    rw [nestedVisitsAll, ih, List.flatMap_cons]
    rfl

@[simp] theorem nestedVisits_branch (o : Options) (scope : Scope) (id : NodeId) (node : Node)
    (children : List Tree) :
    (branch id node children).nestedVisits o scope =
      children.flatMap (childVisits o (scope.enter node)) := by
  rw [nestedVisits, nestedVisitsAll_eq]

@[simp] theorem nestedVisits_leaf (o : Options) (scope : Scope) (id : NodeId) (node : Node) :
    (leaf id node).nestedVisits o scope = [] := rfl

theorem filterMap_opened?_visits (o : Options) (scope : Scope) (t : Tree) :
    (t.visits o scope).filterMap Visit.opened? =
      ⟨scope, t⟩ :: (t.nestedVisits o scope).filterMap Visit.opened? := by
  have hlast : [Visit.closing ⟨scope, t⟩].filterMap Visit.opened? = [] := rfl
  have hhead : Visit.opened? (.opening ⟨scope, t⟩) = some ⟨scope, t⟩ := rfl
  rw [visits, List.filterMap_append, hlast, List.append_nil, List.filterMap_cons_some hhead]

theorem filterMap_closed?_visits (o : Options) (scope : Scope) (t : Tree) :
    (t.visits o scope).filterMap Visit.closed? =
      (t.nestedVisits o scope).filterMap Visit.closed? ++ [(t.id, t.node)] := by
  have hhead : Visit.closed? (.opening ⟨scope, t⟩) = none := rfl
  rw [visits, List.filterMap_append, List.filterMap_cons_none hhead]
  rfl

/-- Components are opened in the order of the sites. -/
theorem filterMap_opened?_nestedVisits (o : Options) (scope : Scope) (t : Tree) :
    (t.nestedVisits o scope).filterMap Visit.opened? = t.nestedSites o scope := by
  induction t generalizing scope with
  | leaf id node => rfl
  | branch id node children ih =>
    rw [nestedVisits_branch, nestedSites_branch, List.filterMap_flatMap]
    refine List.flatMap_congr fun c hc => ?_
    rw [childVisits, childSites]
    split_ifs
    · rw [filterMap_opened?_visits, ih c hc]
    · exact ih c hc _

/-- Components are closed in the order of the starts. -/
theorem filterMap_closed?_nestedVisits (o : Options) (scope : Scope) (t : Tree) :
    (t.nestedVisits o scope).filterMap Visit.closed? = t.nestedStarts o := by
  induction t generalizing scope with
  | leaf id node => rfl
  | branch id node children ih =>
    rw [nestedVisits_branch, nestedStarts_branch, List.filterMap_flatMap]
    refine List.flatMap_congr fun c hc => ?_
    rw [childVisits, childStarts]
    split_ifs
    · rw [filterMap_closed?_visits, ih c hc]
    · rw [ih c hc, List.append_nil]

end Tree

/-! ### Names -/

namespace Site

variable {o : Options} {s : Snapshot} {tags : Table}

theorem filter_memberRequests (site : Site) (space : Namespace) :
    ((site.memberRequests o s tags).filter fun r => r.space = space) =
      if .member = space then site.memberRequests o s tags else [] :=
  Request.filter_space (fun _ hr => Tree.space_of_mem_memberRequests hr) space

end Site

namespace Visit

variable {o : Options} {s : Snapshot} {tags : Table}

theorem space_ne_tag_of_mem_requests {vs : List Visit} {r : Request}
    (h : r ∈ vs.flatMap (requests o s tags)) : r.space ≠ .tag := by
  obtain ⟨v, -, hr⟩ := List.mem_flatMap.mp h
  cases v with
  | opening site => simp [Tree.space_of_mem_memberRequests hr]
  | closing site =>
    rw [List.mem_singleton.mp hr]
    simp [Tree.classRequest]

theorem filter_member_requests (vs : List Visit) :
    ((vs.flatMap (requests o s tags)).filter fun r => r.space = .member) =
      (vs.filterMap opened?).flatMap (·.memberRequests o s tags) := by
  induction vs with
  | nil => rfl
  | cons v vs ih =>
    rw [List.flatMap_cons, List.filter_append, ih]
    cases v with
    | opening site =>
      rw [requests, site.filter_memberRequests, if_pos rfl]
      rfl
    | closing site => rfl

theorem filter_className_requests (vs : List Visit) :
    ((vs.flatMap (requests o s tags)).filter fun r => r.space = .className) =
      (vs.filterMap closed?).map Tree.classRequest := by
  induction vs with
  | nil => rfl
  | cons v vs ih =>
    rw [List.flatMap_cons, List.filter_append, ih]
    cases v with
    | opening site =>
      rw [requests, site.filter_memberRequests, if_neg (by decide)]
      rfl
    | closing site => rfl

end Visit

namespace Tree

variable {o : Options} {s : Snapshot} {t : Tree}

/-- Naming at each visit gives the names of the plan. -/
theorem lookup_visits (space : Namespace) (entity : Entity) :
    let tags := t.planTags .empty
    (tags.assignAll ((t.visits o .empty).flatMap (Visit.requests o s tags))).lookup space entity =
      (t.plan o s).lookup space entity := by
  rw [plan, ← Table.assignAll_append]
  refine Table.lookup_assignAll_congr _ ?_ entity
  rw [List.filter_append, Request.filter_space fun _ => space_of_mem_flatMap_memberRequests,
    Request.filter_space fun _ => space_of_mem_classRequests]
  cases space with
  | tag =>
    rw [if_neg (by decide), if_neg (by decide), List.append_nil, List.filter_eq_nil_iff]
    intro r hr
    simpa using Visit.space_ne_tag_of_mem_requests hr
  | member =>
    rw [if_pos rfl, if_neg (by decide), List.append_nil, Visit.filter_member_requests,
      filterMap_opened?_visits, filterMap_opened?_nestedVisits, sites]
  | className =>
    rw [if_neg (by decide), if_pos rfl, List.nil_append, Visit.filter_className_requests,
      filterMap_closed?_visits, filterMap_closed?_nestedVisits, starts]

end Tree

end DesignComponents
