import DesignComponents.Proofs.Host.Failing
import DesignComponents.Proofs.Payload.Relabeling

/-! Requests that fail. A request for a scene with a root gives no payload exactly if an answer that
it needs ends it; faults about other nodes and variables are never seen. A request that went
through gives a payload for every wanted variant. One that did not reports a style if any style
ended it, but for one case: if only the query of the root's own style dies, which runs in no
task, then the request dies with it and reports nothing. -/

namespace DesignComponents.Scene

variable {scene : Scene} {h : Host} {schedule : Schedule} {p : Preferences}

theorem generate_of_root_eq_none (hr : scene.root = none) (h : Host) (schedule : Schedule)
    (p : Preferences) : scene.generate h schedule p = .result (.error .noRoot) := by
  rw [generate, ask, rootTree, rootTree?, hr]
  rfl

theorem generate_of_rootTree? {t : Tree} (ht : scene.rootTree? = some t) (h : Host)
    (schedule : Schedule) (p : Preferences) :
    scene.generate h schedule p = h.query schedule t >>= fun s => .result (.ok
      (p.variants.map (Payload.ofComponents · (t.rendered p.options s)))) := by
  have hask : scene.ask h schedule = h.query schedule t := by
    rw [ask, rootTree, ht]
    rfl
  have hcompile := fun s => compile_of_rootTree? ht s p
  simp only [generate, hask, hcompile]

/-- If any style ends a request, the request reports the failure of one. -/
def ReportsStyle (scene : Scene) (h : Host) (r : NodeId) (ending : Ending (List Payload)) : Prop :=
  (∃ i, scene.Reaches r i ∧ ¬ (h.style i).Soft) →
    ∃ f, ending = .result (.error f) ∧ ∃ i, scene.Reaches r i ∧ (h.style i).Fails f

/-- Of the styles that a request asks for, only that of the root ends it, and that query dies. -/
def OnlyRootDies (scene : Scene) (h : Host) (r : NodeId) : Prop :=
  h.style r = .dies ∧ ∀ i, scene.Reaches r i → i ≠ r → (h.style i).Soft

/-- How a request for the nodes below a root ends. -/
structure Decided (scene : Scene) (r : NodeId) (h : Host) (p : Preferences)
    (ending : Ending (List Payload)) : Prop where
  /-- It goes through exactly if no answer that it needs ends it, -/
  ok_iff : (∃ payloads, ending = .result (.ok payloads)) ↔
    (∀ i, scene.Reaches r i → (h.style i).Soft) ∧ ∀ v, scene.Binds r v → (h.variableName v).Soft
  /-- with a payload of the components that the answers give for every wanted variant, in order. -/
  payloads_eq : ∀ payloads, ending = .result (.ok payloads) →
    ∃ t, scene.rootTree? = some t ∧
      payloads = p.variants.map (Payload.ofComponents · (t.rendered p.options (h.answers t)))
  /-- A failure is that of an answer that it needs, -/
  error_fails : ∀ f, ending = .result (.error f) →
    (∃ i, scene.Reaches r i ∧ h.StyleFails r i f) ∨
      ∃ v, scene.Binds r v ∧ (h.variableName v).Fails f
  /-- and of a style if any style ends it and not only the root dies. -/
  reportsStyle_iff : scene.ReportsStyle h r ending ↔ ¬ scene.OnlyRootDies h r
  /-- Then there is no result. -/
  dies_iff : ending = .dies ↔ scene.OnlyRootDies h r

variable {r : NodeId}

theorem not_onlyRootDies_of_styleFails {i : NodeId} {f : Failure} (hi : scene.Reaches r i)
    (hf : h.StyleFails r i f) : ¬ scene.OnlyRootDies h r := by
  rintro ⟨hroot, hsoft⟩
  by_cases hir : i = r
  · subst hir
    cases hf with
    | unavailable he => simp [hroot] at he
    | dies hne he => exact hne rfl
  · exact hf.fails.not_soft (hsoft i hi hir)

theorem not_onlyRootDies_of_soft (hs : ∀ i, scene.Reaches r i → (h.style i).Soft) :
    ¬ scene.OnlyRootDies h r := by
  rintro ⟨hroot, -⟩
  have hsoft := hs r (Reaches.refl r)
  rwa [hroot] at hsoft

namespace Decided

theorem of_style {i : NodeId} {f : Failure} (hi : scene.Reaches r i) (hf : h.StyleFails r i f) :
    scene.Decided r h p (.result (.error f)) where
  ok_iff := by
    constructor
    · rintro ⟨payloads, ⟨⟩⟩
    · exact fun hs => absurd (hs.1 i hi) hf.fails.not_soft
  payloads_eq := by rintro payloads ⟨⟩
  error_fails := by
    rintro _ ⟨⟩
    exact .inl ⟨i, hi, hf⟩
  reportsStyle_iff := iff_of_true (fun _ => ⟨f, rfl, i, hi, hf.fails⟩)
    (not_onlyRootDies_of_styleFails hi hf)
  dies_iff := iff_of_false Ending.result_ne_dies (not_onlyRootDies_of_styleFails hi hf)

theorem of_name {v : VariableId} {f : Failure} (hs : ∀ i, scene.Reaches r i → (h.style i).Soft)
    (hv : scene.Binds r v) (hf : (h.variableName v).Fails f) :
    scene.Decided r h p (.result (.error f)) where
  ok_iff := by
    constructor
    · rintro ⟨payloads, ⟨⟩⟩
    · exact fun hs => absurd (hs.2 v hv) hf.not_soft
  payloads_eq := by rintro payloads ⟨⟩
  error_fails := by
    rintro _ ⟨⟩
    exact .inr ⟨v, hv, hf⟩
  reportsStyle_iff := iff_of_true (fun ⟨i, hi, hhard⟩ => absurd (hs i hi) hhard)
    (not_onlyRootDies_of_soft hs)
  dies_iff := iff_of_false Ending.result_ne_dies (not_onlyRootDies_of_soft hs)

theorem of_dies (hd : scene.OnlyRootDies h r) : scene.Decided r h p .dies where
  ok_iff := by
    constructor
    · rintro ⟨payloads, ⟨⟩⟩
    · exact fun hs => absurd hd (not_onlyRootDies_of_soft hs.1)
  payloads_eq := by rintro payloads ⟨⟩
  error_fails := by rintro f ⟨⟩
  reportsStyle_iff := by
    refine iff_of_false (fun hreports => ?_) (not_not_intro hd)
    obtain ⟨f, ⟨⟩, -⟩ := hreports ⟨r, Reaches.refl r, by rw [hd.1]; exact id⟩
  dies_iff := iff_of_true rfl hd

theorem of_answers {t : Tree} (ht : scene.rootTree? = some t)
    (hs : ∀ i, scene.Reaches r i → (h.style i).Soft)
    (hv : ∀ v, scene.Binds r v → (h.variableName v).Soft) :
    scene.Decided r h p (.result (.ok
      (p.variants.map (Payload.ofComponents · (t.rendered p.options (h.answers t)))))) where
  ok_iff := iff_of_true ⟨_, rfl⟩ ⟨hs, hv⟩
  payloads_eq := by
    rintro _ ⟨⟩
    exact ⟨t, ht, rfl⟩
  error_fails := by rintro f ⟨⟩
  reportsStyle_iff := iff_of_true (fun ⟨i, hi, hhard⟩ => absurd (hs i hi) hhard)
    (not_onlyRootDies_of_soft hs)
  dies_iff := iff_of_false Ending.result_ne_dies (not_onlyRootDies_of_soft hs)

end Decided

theorem Shows.decided {t : Tree} (hsh : scene.Shows t) (hn : t.ids.Nodup)
    (ht : scene.rootTree? = some t) (h : Host) (schedule : Schedule) (p : Preferences) :
    scene.Decided t.id h p (scene.generate h schedule p) := by
  have hbelow : ∀ {i}, i ∈ t.idsBelow ↔ scene.Reaches t.id i ∧ i ≠ t.id := fun {i} => by
    rw [Tree.mem_idsBelow hn, hsh.mem_ids]
  have hall : (∀ i ∈ t.ids, (h.style i).Soft) → ∀ i, scene.Reaches t.id i → (h.style i).Soft :=
    fun hs i hi => hs i (hsh.mem_ids.mpr hi)
  rw [generate_of_rootTree? ht]
  have hends := h.queryEnds schedule t
  generalize h.query schedule t = ending at hends ⊢
  cases hends with
  | styleBelow hi hf =>
    obtain ⟨hreach, hne⟩ := hbelow.mp hi
    exact .of_style hreach (h.styleFails_of_fails hne hf)
  | startUnavailable hs he => exact .of_style (Reaches.refl t.id) (.unavailable he)
  | startDies hs he => exact .of_dies ⟨he, fun i hi hne => hs i (hbelow.mpr ⟨hi, hne⟩)⟩
  | name hs hv hf => exact .of_name (hall hs) (hsh.mem_boundVariables.mp hv) hf
  | answered hs hv =>
    exact .of_answers ht (hall hs) fun v hb => hv v (hsh.mem_boundVariables.mpr hb)

/-- In whatever order the queries complete, a request finds no root exactly if there is none.
With a root it is decided by the answers about the nodes below and the variables bound there,
and no other answer makes a difference. -/
theorem generate_decided {scene : Scene} (hb : scene.Built) (h : Host) (schedule : Schedule)
    (p : Preferences) :
    (scene.generate h schedule p = .result (.error .noRoot) ↔ scene.root = none) ∧
      ∀ r, scene.root = some r →
        scene.Decided r h p (scene.generate h schedule p) ∧
          ∀ h' : Host, (∀ i, scene.Reaches r i → h'.style i = h.style i) →
            (∀ v, scene.Binds r v → h'.variableName v = h.variableName v) →
              scene.generate h' schedule p = scene.generate h schedule p := by
  have hdecided : ∀ {t}, scene.rootTree? = some t → scene.Shows t →
      scene.Decided t.id h p (scene.generate h schedule p) :=
    fun ht hsh => hsh.decided (hsh.nodup_ids hb.forest) ht h schedule p
  constructor
  · refine ⟨fun he => ?_, fun hr => generate_of_root_eq_none hr h schedule p⟩
    by_contra hne
    obtain ⟨r, hr⟩ := Option.ne_none_iff_exists'.mp hne
    obtain ⟨t, ht, hsh, rfl⟩ := hb.forest.rootTree?_shows hr
    rcases (hdecided ht hsh).error_fails _ he with ⟨i, -, hf⟩ | ⟨v, -, hf⟩
    · exact hf.fails.ne_noRoot rfl
    · exact hf.ne_noRoot rfl
  · intro r hr
    obtain ⟨t, ht, hsh, rfl⟩ := hb.forest.rootTree?_shows hr
    refine ⟨hdecided ht hsh, fun h' hstyle hname => ?_⟩
    rw [generate_of_rootTree? ht, generate_of_rootTree? ht, Host.query_congr schedule
      (fun i hi => hstyle i (hsh.mem_ids.mp hi))
      fun v hv => hname v (hsh.mem_boundVariables.mp hv)]

/-- A host that is closed while the title is asked for, and dies on the variable of the footer. -/
def closedHost : Host :=
  (Host.cardHost.withStyle 2 (.error (.unavailable "closed"))).withVariable "v" .dies

theorem cardPage_generate_decided :
    cardPage.Built ∧
      (cardPage.generate closedHost .inOrder .multi = .result (.error .noRoot) ↔
        cardPage.root = none) ∧
      cardPage.root = some 0 ∧
      cardPage.Decided 0 closedHost .multi (cardPage.generate closedHost .inOrder .multi) :=
  have h := generate_decided cardPage_built closedHost .inOrder .multi
  ⟨cardPage_built, h.1, rfl, (h.2 0 rfl).1⟩

/-- A host that dies on the style of the page. -/
def lostHost : Host := Host.cardHost.withStyle 0 .dies

/-- The page's own style ends the request, and nothing is reported. -/
theorem cardPage_not_reportsStyle :
    cardPage.Built ∧ cardPage.root = some 0 ∧ lostHost.style 0 = .dies ∧
      ¬ cardPage.ReportsStyle lostHost 0 (cardPage.generate lostHost .inOrder .multi) := by
  have hsoft : ∀ i ≠ 0, (lostHost.style i).Soft := by
    intro i hi
    simp only [lostHost, Host.withStyle, if_neg hi, Host.cardHost]
    split_ifs <;> trivial
  obtain ⟨t, ht, hsh, hid⟩ := cardPage_built.forest.rootTree?_shows (r := 0) rfl
  have hdecided := hsh.decided (hsh.nodup_ids cardPage_built.forest) ht lostHost .inOrder .multi
  rw [hid] at hdecided
  exact ⟨cardPage_built, rfl, rfl,
    hdecided.reportsStyle_iff.not.mpr (not_not_intro ⟨rfl, fun i _ hi => hsoft i hi⟩)⟩

end DesignComponents.Scene
