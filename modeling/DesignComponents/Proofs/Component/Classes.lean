import DesignComponents.Proofs.Component.Tags
import DesignComponents.Proofs.Identifier.Grammar
import DesignComponents.Proofs.Identifier.Separation

/-! The classes of a scene. A component gets its class when it is closed, after all that is inside
of it, while it is found when it is opened. So a class has the number of components with its base
that are closed before, and this is the order in which components are found except where a
component lies inside another one with the same base. -/

namespace DesignComponents

open Identifier (Namespace Request Table)

/-! ### The order of closings -/

theorem append_eq_append_cons {α : Type} {l l' before after : List α} {a : α}
    (h : l ++ l' = before ++ a :: after) :
    (∃ after', l = before ++ a :: after' ∧ after = after' ++ l') ∨
      ∃ before', before = l ++ before' ∧ l' = before' ++ a :: after := by
  rcases List.append_eq_append_iff.mp h with ⟨before', hb, hl⟩ | ⟨inner, hl, ha⟩
  · exact .inr ⟨before', hb, hl⟩
  · cases inner with
    | nil => exact .inr ⟨[], by simpa using hl.symm, by simpa using ha.symm⟩
    | cons b inner =>
      obtain ⟨rfl, rfl⟩ := List.cons.inj ha
      exact .inl ⟨inner, hl, rfl⟩

namespace Site

/-- The node at which the component starts. -/
def start (site : Site) : NodeId × Node := (site.tree.id, site.tree.node)

/-- The sites that are closed before a given one: those opened before it that do not lie around
it, and of those opened after it the ones inside of it. -/
def closedBefore (before : List Site) (site : Site) (after : List Site) : List Site :=
  (before.filter fun m => site.tree.id ∉ m.tree.ids) ++
    after.filter fun m => m.tree.id ∈ site.tree.ids

end Site

/-- Sites in the order of openings, and their starts in the order of closings. -/
structure Closes (sites : List Site) (starts : List (NodeId × Node)) : Prop where
  perm : starts.Perm (sites.map Site.start)
  /-- What lies inside of a site is opened after it. -/
  inside_after : ∀ before site after, sites = before ++ site :: after →
    ∀ m ∈ before, m.tree.id ∉ site.tree.ids
  closed_before : ∀ before site after, sites = before ++ site :: after →
    ∃ closed rest, starts = closed ++ site.start :: rest ∧
      closed.Perm ((Site.closedBefore before site after).map Site.start)

namespace Closes

theorem nil : Closes [] [] where
  perm := .refl _
  inside_after := by simp
  closed_before := by simp

/-- Sites that lie next to each other are closed as they are opened. -/
theorem append {ms ms' : List Site} {starts starts' : List (NodeId × Node)} (h : Closes ms starts)
    (h' : Closes ms' starts')
    (hapart : ∀ m ∈ ms, ∀ m' ∈ ms', m.tree.id ∉ m'.tree.ids ∧ m'.tree.id ∉ m.tree.ids) :
    Closes (ms ++ ms') (starts ++ starts') := by
  constructor
  case perm =>
    rw [List.map_append]
    exact h.perm.append h'.perm
  case inside_after =>
    intro before site after he m hm
    rcases append_eq_append_cons he with ⟨after', hms, -⟩ | ⟨before', rfl, hms'⟩
    · exact h.inside_after before site after' hms m hm
    · rcases List.mem_append.mp hm with hm | hm
      · exact (hapart m hm site (by simp [hms'])).1
      · exact h'.inside_after before' site after hms' m hm
  case closed_before =>
    intro before site after he
    rcases append_eq_append_cons he with ⟨after', hms, rfl⟩ | ⟨before', rfl, hms'⟩
    · obtain ⟨closed, rest, rfl, hperm⟩ := h.closed_before before site after' hms
      have hnone : (ms'.filter fun m => m.tree.id ∈ site.tree.ids) = [] :=
        List.filter_eq_nil_iff.mpr fun m hm => by
          simpa using (hapart site (by simp [hms]) m hm).2
      refine ⟨closed, rest ++ starts', by simp, ?_⟩
      rwa [Site.closedBefore, List.filter_append, hnone, List.append_nil]
    · obtain ⟨closed, rest, rfl, hperm⟩ := h'.closed_before before' site after hms'
      have hall : (ms.filter fun m => site.tree.id ∉ m.tree.ids) = ms :=
        List.filter_eq_self.mpr fun m hm => by
          simpa using (hapart m hm site (by simp [hms'])).2
      refine ⟨starts ++ closed, rest, by simp, ?_⟩
      rw [Site.closedBefore, List.filter_append, hall, List.append_assoc, List.map_append]
      exact h.perm.append hperm

/-- A site is opened before all that is inside of it and closed after it. -/
theorem around {site : Site} {inside : List Site} {starts : List (NodeId × Node)}
    (h : Closes inside starts)
    (hin : ∀ m ∈ inside, m.tree.id ∈ site.tree.ids ∧ site.tree.id ∉ m.tree.ids) :
    Closes (site :: inside) (starts ++ [site.start]) := by
  constructor
  case perm => exact List.perm_append_comm.trans (h.perm.cons _)
  case inside_after =>
    intro before m after he
    cases before with
    | nil => simp
    | cons first before =>
      obtain ⟨rfl, hinside⟩ := List.cons.inj he
      rw [List.forall_mem_cons]
      exact ⟨(hin m (by simp [hinside])).2, h.inside_after before m after hinside⟩
  case closed_before =>
    intro before m after he
    cases before with
    | nil =>
      obtain ⟨rfl, rfl⟩ := List.cons.inj he
      have hall : (inside.filter fun m => m.tree.id ∈ site.tree.ids) = inside :=
        List.filter_eq_self.mpr fun m hm => by simpa using (hin m hm).1
      refine ⟨starts, [], rfl, ?_⟩
      rw [Site.closedBefore, List.filter_nil, List.nil_append, hall]
      exact h.perm
    | cons first before =>
      obtain ⟨rfl, hinside⟩ := List.cons.inj he
      obtain ⟨closed, rest, rfl, hperm⟩ := h.closed_before before m after hinside
      have hout : ((site :: before).filter fun k => m.tree.id ∉ k.tree.ids) =
          before.filter fun k => m.tree.id ∉ k.tree.ids :=
        List.filter_cons_of_neg (by simpa using (hin m (by simp [hinside])).1)
      refine ⟨closed, rest ++ [site.start], by simp, ?_⟩
      rwa [Site.closedBefore, hout]

theorem flatMap {ts : List Tree} {sites : Tree → List Site} {starts : Tree → List (NodeId × Node)}
    (h : ∀ t ∈ ts, Closes (sites t) (starts t))
    (hapart : ts.Pairwise fun t t' => ∀ m ∈ sites t, ∀ m' ∈ sites t',
      m.tree.id ∉ m'.tree.ids ∧ m'.tree.id ∉ m.tree.ids) :
    Closes (ts.flatMap sites) (ts.flatMap starts) := by
  induction ts with
  | nil => exact nil
  | cons t ts ih =>
    obtain ⟨hfirst, hrest⟩ := List.pairwise_cons.mp hapart
    rw [List.flatMap_cons, List.flatMap_cons]
    refine (h t List.mem_cons_self).append
      (ih (fun t' ht' => h t' (List.mem_cons_of_mem _ ht')) hrest) fun m hm m' hm' => ?_
    obtain ⟨t', ht', hm'⟩ := List.mem_flatMap.mp hm'
    exact hfirst t' ht' m hm m' hm'

end Closes

namespace Tree

variable {o : Options} {s : Snapshot}

theorem id_mem_ids (t : Tree) : t.id ∈ t.ids := by
  cases t <;> simp [Tree.id]

theorem ids_subset_of_mem_childSites {scope : Scope} {t : Tree} {site : Site}
    (h : site ∈ t.childSites o scope) : site.tree.ids ⊆ t.ids := by
  rcases mem_childSites.mp h with ⟨-, rfl⟩ | h
  · exact List.Subset.refl _
  · refine nestedSites_induct (P := fun u => u.ids ⊆ t.ids) ?_ (List.Subset.refl _) h
    intro id node children hsub c hc
    exact List.Subset.trans (ids_subset_branch id node hc) hsub

/-- What lies inside of a tree does not lie around it. -/
theorem mem_ids_of_mem_nestedSites {scope : Scope} {t : Tree} (h : t.ids.Nodup) {site : Site}
    (hs : site ∈ t.nestedSites o scope) : site.tree.id ∈ t.ids ∧ t.id ∉ site.tree.ids := by
  cases t with
  | leaf id node => simp at hs
  | branch id node children =>
    rw [nestedSites_branch, List.mem_flatMap] at hs
    obtain ⟨c, hc, hs⟩ := hs
    rw [ids_branch, List.nodup_cons] at h
    have hsub := ids_subset_of_mem_childSites hs
    constructor
    · exact ids_subset_branch id node hc (hsub (id_mem_ids _))
    · exact fun hid => h.1 (List.mem_flatMap.mpr ⟨c, hc, hsub hid⟩)

/-- Inside of a tree components are closed in the order of the starts. -/
theorem closes_nestedSites (scope : Scope) {t : Tree} (h : t.ids.Nodup) :
    Closes (t.nestedSites o scope) (t.nestedStarts o) := by
  induction t generalizing scope with
  | leaf id node => exact .nil
  | branch id node children ih =>
    rw [ids_branch, List.nodup_cons, List.nodup_flatMap] at h
    obtain ⟨-, hchildren, hdisjoint⟩ := h
    rw [nestedSites_branch, nestedStarts_branch]
    refine .flatMap (fun c hc => ?_) (hdisjoint.imp fun {c c'} hcc m hm m' hm' => ?_)
    · have hinside := ih c hc (scope.enter node) (hchildren c hc)
      rw [childSites, childStarts]
      split_ifs
      · exact hinside.around fun m hm => mem_ids_of_mem_nestedSites (hchildren c hc) hm
      · rwa [List.append_nil]
    · have hsub := ids_subset_of_mem_childSites hm
      have hsub' := ids_subset_of_mem_childSites hm'
      exact ⟨fun hid => hcc (hsub (id_mem_ids _)) (hsub' hid),
        fun hid => hcc (hsub hid) (hsub' (id_mem_ids _))⟩

theorem closes_sites {t : Tree} (h : t.ids.Nodup) (o : Options) : Closes (t.sites o) (t.starts o) :=
  (closes_nestedSites .empty h).around fun _ hm => mem_ids_of_mem_nestedSites h hm

/-! ### The names of classes -/

/-- Classes are named for themselves, in the order of closings. -/
theorem lookup_className_plan (t : Tree) (entity : Identifier.Entity) :
    (t.plan o s).lookup .className entity =
      (Table.empty.assignAll ((t.starts o).map (nodeRequest .className))).lookup .className
        entity := by
  rw [plan, ← Table.assignAll_append]
  show Table.lookup (Table.assignAll (Table.empty.assignAll (t.preorder.map tagRequest)) _) _ _ = _
  rw [← Table.assignAll_append]
  refine Table.lookup_assignAll_congr _ ?_ entity
  rw [List.filter_append, List.filter_append,
    Request.filter_space fun _ => space_of_mem_tagRequests,
    Request.filter_space fun _ => space_of_mem_flatMap_memberRequests, if_neg (by decide),
    if_neg (by decide), List.nil_append, List.nil_append]
  rfl

theorem nameOf_className_of_starts {t : Tree} (h : t.ids.Nodup)
    {closed rest : List (NodeId × Node)} {n : NodeId × Node}
    (hn : t.starts o = closed ++ n :: rest) :
    (t.plan o s).nameOf .className (.node n.1) =
      Table.numbered (nodeBase .className n)
        (closed.countP fun m => nodeBase .className m = nodeBase .className n) := by
  have hnodup : ((t.starts o).map Prod.fst).Nodup := by
    rw [((closes_sites h o).perm.map Prod.fst).nodup_iff, List.map_map]
    exact nodup_ids_sites h
  have hname := lookup_nodeRequest .className rfl hnodup hn
  rw [← lookup_className_plan (s := s)] at hname
  exact Table.nameOf_eq hname

/-- The class of a component is its base with the number of equal bases that are closed before. -/
theorem nameOf_className_plan {t : Tree} (h : t.ids.Nodup) {before after : List Site} {site : Site}
    (hs : t.sites o = before ++ site :: after) :
    (t.plan o s).nameOf .className (.node site.tree.id) =
      Table.numbered (nodeBase .className site.start)
        ((Site.closedBefore before site after).countP fun m =>
          nodeBase .className m.start = nodeBase .className site.start) := by
  obtain ⟨closed, rest, hstarts, hperm⟩ := (closes_sites h o).closed_before before site after hs
  have hname := nameOf_className_of_starts (s := s) h hstarts
  rw [hperm.countP_eq, List.countP_map, Function.comp_def] at hname
  exact hname

/-- Of all components with one base, the one that is closed first has the base as its class. -/
theorem exists_nameOf_className_eq {t : Tree} (h : t.ids.Nodup) {site : Site}
    (hs : site ∈ t.sites o) :
    ∃ first ∈ t.sites o, nodeBase .className first.start = nodeBase .className site.start ∧
      (t.plan o s).nameOf .className (.node first.tree.id) = nodeBase .className site.start := by
  have hperm := (closes_sites h o).perm
  have hsome : ((t.starts o).find? fun n =>
      nodeBase .className n = nodeBase .className site.start).isSome :=
    List.find?_isSome.mpr
      ⟨site.start, hperm.symm.subset (List.mem_map_of_mem hs), decide_eq_true rfl⟩
  obtain ⟨n, hn⟩ := Option.isSome_iff_exists.mp hsome
  obtain ⟨hbase, closed, rest, hstarts, hclosed⟩ := List.find?_eq_some_iff_append.mp hn
  replace hbase := of_decide_eq_true hbase
  obtain ⟨first, hfirst, rfl⟩ := List.mem_map.mp (hperm.subset (hstarts ▸ by simp : n ∈ t.starts o))
  have hnone : (closed.countP fun m =>
      nodeBase .className m = nodeBase .className first.start) = 0 := by
    refine List.countP_eq_zero.mpr fun m hm => ?_
    simpa [hbase] using hclosed m hm
  have hname := nameOf_className_of_starts (s := s) h hstarts
  rw [hnone, hbase] at hname
  exact ⟨first, hfirst, hbase, hname⟩

/-- Where the components of a tree are split, its sites are. -/
theorem exists_sites_of_components {t : Tree} {before after : List Descriptor} {d : Descriptor}
    (h : t.components o s = before ++ d :: after) :
    ∃ before' site after', t.sites o = before' ++ site :: after' ∧
      before = before'.map (·.describe (t.environment o s)) ∧
      d = site.describe (t.environment o s) ∧
      after = after'.map (·.describe (t.environment o s)) := by
  obtain ⟨before', rest, hs, rfl, hrest⟩ := List.map_eq_append_iff.mp h
  obtain ⟨site, after', rfl, rfl, rfl⟩ := List.map_eq_cons_iff.mp hrest
  exact ⟨before', site, after', hs, rfl, rfl, rfl⟩

end Tree

namespace Scene

/-- The base of a component's class: what the name of the node where it starts becomes. -/
def classBase (scene : Scene) (d : Descriptor) : String :=
  Namespace.className.normalize (((scene.node? d.origin).map Node.name).getD "")

/-- One component starts at another one's start or below it. -/
def encloses (scene : Scene) (d d' : Descriptor) : Bool :=
  d'.origin ∈ scene.descendants scene.size d.origin

/-- The components that are closed before a given one: those found before it that do not enclose
it, and of those found after it the ones that it encloses. -/
def closedBefore (scene : Scene) (before : List Descriptor) (d : Descriptor)
    (after : List Descriptor) : List Descriptor :=
  (before.filter fun m => !scene.encloses m d) ++ after.filter (scene.encloses d)

/-- Classes are numbered in the order in which components are found, as tags are in the order of
nodes. -/
def NumberedInOrder (scene : Scene) (ds : List Descriptor) : Prop :=
  ∀ before d after, ds = before ++ d :: after →
    d.className = Table.numbered (scene.classBase d)
      (before.countP fun m => scene.classBase m = scene.classBase d)

/-- Classes are numbered in the order in which components are closed. -/
structure NumberedAtClosing (scene : Scene) (ds : List Descriptor) : Prop where
  nodup : ds.Nodup
  base_eq : ∀ d ∈ ds, ∃ n, scene.node? d.origin = some n ∧
    scene.classBase d = Namespace.className.normalize n.name
  /-- What a component encloses is found after it. -/
  inside_after : ∀ before d after, ds = before ++ d :: after →
    ∀ m ∈ before, scene.encloses d m = false
  className_eq : ∀ before d after, ds = before ++ d :: after →
    d.className = Table.numbered (scene.classBase d)
      ((scene.closedBefore before d after).countP fun m => scene.classBase m = scene.classBase d)

namespace NumberedAtClosing

variable {scene : Scene} {ds : List Descriptor}

/-- A component has a base as its class exactly if it is closed before all others with this base. -/
theorem className_eq_normalize_iff (h : scene.NumberedAtClosing ds)
    {before after : List Descriptor} {d : Descriptor} (hd : ds = before ++ d :: after)
    (raw : String) :
    d.className = Namespace.className.normalize raw ↔
      scene.classBase d = Namespace.className.normalize raw ∧
        ∀ m ∈ scene.closedBefore before d after,
          scene.classBase m ≠ Namespace.className.normalize raw := by
  have hfirst : Table.numbered (Namespace.className.normalize raw) 0 =
      Namespace.className.normalize raw := rfl
  rw [h.className_eq before d after hd, ← hfirst, classBase,
    Table.numbered_inj (Namespace.plain_normalize _ _) (Namespace.plain_normalize _ _), hfirst]
  refine and_congr_right fun hbase => ?_
  rw [List.countP_eq_zero, hbase]
  simp only [decide_eq_true_eq]

theorem spells_className (h : scene.NumberedAtClosing ds) {d : Descriptor} (hd : d ∈ ds) :
    Namespace.className.Spells d.className := by
  obtain ⟨before, after, hsplit⟩ := List.append_of_mem hd
  rw [h.className_eq before d after hsplit]
  exact Namespace.className.spells_numbered _ _

/-- A class has the number that it would have in the order of components exactly if as many
components with its base enclose it as it encloses. -/
theorem className_eq_iff (h : scene.NumberedAtClosing ds) {before after : List Descriptor}
    {d : Descriptor} (hd : ds = before ++ d :: after) :
    d.className = Table.numbered (scene.classBase d)
        (before.countP fun m => scene.classBase m = scene.classBase d) ↔
      ((before.filter (scene.encloses · d)).countP fun m =>
          scene.classBase m = scene.classBase d) =
        (after.filter (scene.encloses d)).countP fun m =>
          scene.classBase m = scene.classBase d := by
  rw [h.className_eq before d after hd, (Table.numbered_injective _).eq_iff, closedBefore,
    List.countP_append, List.countP_eq_countP_filter_add before _ (scene.encloses · d),
    Nat.add_comm]
  omega

/-- In the order of components, no component has the base of one around it. -/
theorem eq_of_encloses (h : scene.NumberedAtClosing ds) (hin : scene.NumberedInOrder ds)
    {before after : List Descriptor} {d : Descriptor} (hd : ds = before ++ d :: after)
    {d' : Descriptor} (hd' : d' ∈ ds) (he : scene.encloses d d' = true)
    (hbase : scene.classBase d' = scene.classBase d) : d' = d := by
  -- the outermost component comes first, so that the induction is on what comes before
  induction hk : before.length using Nat.strong_induction_on generalizing before d after d' with
  | _ k ih =>
    have houter : ((before.filter (scene.encloses · d)).countP fun m =>
        scene.classBase m = scene.classBase d) = 0 := by
      refine List.countP_eq_zero.mpr fun m hm hsame => ?_
      obtain ⟨hm, hmd⟩ := List.mem_filter.mp hm
      obtain ⟨before', after', rfl⟩ := List.append_of_mem hm
      have hlt : before'.length < k := by
        rw [← hk, List.length_append, List.length_cons]
        omega
      have hsplit : ds = before' ++ m :: (after' ++ d :: after) := by simp [hd]
      have hmem : d ∈ ds := by simp [hd]
      have hdm := ih before'.length hlt hsplit hmem hmd (of_decide_eq_true hsame).symm rfl
      have hnodup := h.nodup
      simp [hd, hdm, List.nodup_append] at hnodup
    have hinner := ((h.className_eq_iff hd).mp (hin before d after hd)).symm.trans houter
    rw [hd, List.mem_append, List.mem_cons] at hd'
    rcases hd' with hm | rfl | hm
    · exact absurd he (by simp [h.inside_after before d after hd d' hm])
    · rfl
    · have hnot := List.countP_eq_zero.mp hinner d' (List.mem_filter.mpr ⟨hm, he⟩)
      exact absurd (decide_eq_true hbase) hnot

/-- The numbers follow the order of components exactly if no component lies inside another one with
the same base. -/
theorem numberedInOrder_iff (h : scene.NumberedAtClosing ds) :
    scene.NumberedInOrder ds ↔ ∀ d ∈ ds, ∀ d' ∈ ds, scene.encloses d d' = true →
      scene.classBase d' = scene.classBase d → d' = d := by
  constructor
  · intro hin d hd d' hd' he hbase
    obtain ⟨before, after, hsplit⟩ := List.append_of_mem hd
    exact h.eq_of_encloses hin hsplit hd' he hbase
  · intro hall before d after hd
    have hnodup := h.nodup
    rw [hd, List.nodup_middle, List.nodup_cons, List.mem_append, not_or] at hnodup
    obtain ⟨⟨hbefore, hafter⟩, -⟩ := hnodup
    have houter : ((before.filter (scene.encloses · d)).countP fun m =>
        scene.classBase m = scene.classBase d) = 0 := by
      refine List.countP_eq_zero.mpr fun m hm hsame => ?_
      obtain ⟨hm, hmd⟩ := List.mem_filter.mp hm
      have hdm := hall m (by simp [hd, hm]) d (by simp [hd]) hmd (of_decide_eq_true hsame).symm
      exact hbefore (hdm ▸ hm)
    have hinner : ((after.filter (scene.encloses d)).countP fun m =>
        scene.classBase m = scene.classBase d) = 0 := by
      refine List.countP_eq_zero.mpr fun m hm hsame => ?_
      obtain ⟨hm, hdm⟩ := List.mem_filter.mp hm
      exact hafter (hall d (by simp [hd]) m (by simp [hd, hm]) hdm (of_decide_eq_true hsame) ▸ hm)
    exact (h.className_eq_iff hd).mpr (houter.trans hinner.symm)

end NumberedAtClosing

theorem Shows.classBase_describe {scene : Scene} {e : Environment} {site : Site}
    (h : scene.Shows site.tree) :
    scene.classBase (site.describe e) = Tree.nodeBase .className site.start := by
  show Namespace.className.normalize (((scene.node? site.tree.id).map Node.name).getD "") = _
  rw [h.node?_eq]
  rfl

theorem Shows.encloses_describe {scene : Scene} (hf : scene.Forest) {e : Environment}
    {site site' : Site} (h : scene.Shows site.tree) :
    scene.encloses (site.describe e) (site'.describe e) =
      decide (site'.tree.id ∈ site.tree.ids) := by
  rw [← h.descendants_eq hf (Nat.le_refl _)]
  rfl

/-- The components of a tree are numbered as they are closed. -/
theorem Shows.numberedAtClosing {scene : Scene} (hf : scene.Forest) {t : Tree} (h : scene.Shows t)
    (s : Snapshot) (o : Options) : scene.NumberedAtClosing (t.components o s) := by
  have hnodup := h.nodup_ids hf
  have hcloses := Tree.closes_sites hnodup o
  have hshows : ∀ site ∈ t.sites o, scene.Shows site.tree := fun _ => Tree.shows_of_mem_sites h
  constructor
  case nodup => exact (Tree.nodup_origins_components hnodup).of_map _
  case base_eq =>
    intro d hd
    obtain ⟨site, hs, rfl⟩ := List.mem_map.mp hd
    exact ⟨site.tree.node, (hshows site hs).node?_eq, (hshows site hs).classBase_describe⟩
  case inside_after =>
    intro before d after hd m hm
    obtain ⟨before, site, after, hs, rfl, rfl, rfl⟩ := Tree.exists_sites_of_components hd
    obtain ⟨k, hk, rfl⟩ := List.mem_map.mp hm
    rw [(hshows site (by simp [hs])).encloses_describe hf]
    exact decide_eq_false (hcloses.inside_after _ site after hs k hk)
  case className_eq =>
    intro before d after hd
    obtain ⟨before, site, after, hs, rfl, rfl, rfl⟩ := Tree.exists_sites_of_components hd
    have hsite := hshows site (by simp [hs])
    have hclosed : scene.closedBefore (before.map (·.describe (t.environment o s)))
        (site.describe (t.environment o s)) (after.map (·.describe (t.environment o s))) =
          (Site.closedBefore before site after).map (·.describe (t.environment o s)) := by
      rw [closedBefore, Site.closedBefore, List.filter_map, List.filter_map, List.map_append]
      congr 2
      · refine List.filter_congr fun m hm => ?_
        rw [Function.comp_apply, (hshows m (by simp [hs, hm])).encloses_describe hf]
        simp
      · refine List.filter_congr fun m hm => ?_
        rw [Function.comp_apply, hsite.encloses_describe hf]
    have hname := Tree.nameOf_className_plan (s := s) hnodup hs
    rw [hclosed, hsite.classBase_describe, List.countP_map]
    refine hname.trans (congrArg (Table.numbered _) (List.countP_congr fun m hm => ?_))
    have hm' : m ∈ t.sites o := by
      rw [hs, List.mem_append, List.mem_cons]
      rw [Site.closedBefore, List.mem_append, List.mem_filter, List.mem_filter] at hm
      tauto
    rw [Function.comp_apply, (hshows m hm').classBase_describe]

/-- The base of a component is the class of some component. -/
theorem Shows.exists_className_eq_base {scene : Scene} (hf : scene.Forest) {t : Tree}
    (h : scene.Shows t) {s : Snapshot} {o : Options} {d : Descriptor}
    (hd : d ∈ t.components o s) :
    ∃ first ∈ t.components o s, first.className = scene.classBase d := by
  obtain ⟨site, hs, rfl⟩ := List.mem_map.mp hd
  obtain ⟨first, hfirst, -, hname⟩ :=
    Tree.exists_nameOf_className_eq (s := s) (h.nodup_ids hf) hs
  rw [(Tree.shows_of_mem_sites h hs).classBase_describe]
  exact ⟨_, List.mem_map_of_mem hfirst, hname⟩

/-- Classes are numbered in the order in which components are closed. This is the order of the
components exactly if no component lies inside another one with the same base. -/
theorem classes_numbered {scene : Scene} (hb : scene.Built) {r : NodeId}
    (hr : scene.root = some r) (s : Snapshot) (o : Options) :
    ∃ ds, scene.components s o = .ok ds ∧ scene.NumberedAtClosing ds ∧
      (scene.NumberedInOrder ds ↔ ∀ d ∈ ds, ∀ d' ∈ ds, scene.encloses d d' = true →
        scene.classBase d' = scene.classBase d → d' = d) := by
  have hf := hb.forest
  obtain ⟨t, ht, hsh, -⟩ := hf.rootTree?_shows hr
  have hclosing := hsh.numberedAtClosing hf s o
  exact ⟨t.components o s, components_of_rootTree? ht s o, hclosing, hclosing.numberedInOrder_iff⟩

/-- A card with a card inside. -/
def cardInCard : Scene :=
  let card := empty.addRoot (.ofNode (.plain .frame "Card"))
  card.addChild 0 (.ofNode (.plain .componentInstance "Card"))

theorem cardInCard_built : cardInCard.Built :=
  (Built.empty.addRoot (Slot.fresh_ofNode _)).addChild (Slot.fresh_ofNode _) (by decide)

theorem cardInCard_classes_numbered :
    let o : Options := ⟨.multi, .isolated, .inline⟩
    cardInCard.Built ∧ cardInCard.root = some 0 ∧
      ∃ ds, cardInCard.components .empty o = .ok ds ∧ cardInCard.NumberedAtClosing ds ∧
        (cardInCard.NumberedInOrder ds ↔
          ∀ d ∈ ds, ∀ d' ∈ ds, cardInCard.encloses d d' = true →
            cardInCard.classBase d' = cardInCard.classBase d → d' = d) :=
  ⟨cardInCard_built, rfl, classes_numbered cardInCard_built (r := 0) rfl .empty _⟩

/-- The inner card takes the base, and the outer one, which is found first, gets a number. -/
theorem cardInCard_not_numberedInOrder :
    let o : Options := ⟨.multi, .isolated, .inline⟩
    cardInCard.Built ∧ ∃ outer inner, cardInCard.components .empty o = .ok [outer, inner] ∧
      outer.tag = "card-element" ∧ inner.tag = "card-element_1" ∧
      outer.className = "CardElement_1" ∧ inner.className = "CardElement" ∧
      ¬ cardInCard.NumberedInOrder [outer, inner] := by
  refine ⟨cardInCard_built, _, _, rfl, by decide +kernel, by decide +kernel, by decide +kernel,
    by decide +kernel, fun h => ?_⟩
  exact absurd (h [] _ _ rfl) (by decide +kernel)

end Scene

end DesignComponents
