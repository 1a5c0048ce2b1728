import DesignComponents.Proofs.Document.Loading
import DesignComponents.Proofs.Payload.Request

/-! Requests with gaps. A host that fails softly at some nodes and variables gives the payloads
that a snapshot gives without them. The query enters no declarations where it failed and asks
only for variables that are bound below the root, while the snapshot has no entry there and
may know variables that nothing is bound to; neither shows in a payload. -/

namespace DesignComponents

/-- The nodes and the variables for which an answer is missing. -/
structure Gaps where
  styles : Set NodeId
  names : Set VariableId

/-- The host answers from a snapshot, but in the gaps its queries fail softly, or it does not know
the variable. -/
structure Host.Lapses (h : Host) (s : Snapshot) (g : Gaps) : Prop where
  style_failed : ∀ i ∈ g.styles, ∃ node message, h.style i = .error (.queryFailed node message)
  style_eq : ∀ i ∉ g.styles, h.style i = .value (s.style i)
  name_missing : ∀ v ∈ g.names, h.variableName v = .value none ∨
    ∃ node message, h.variableName v = .error (.queryFailed node message)
  name_eq : ∀ v ∉ g.names, h.variableName v = .value (s.variableName? v)

/-- The snapshot has what the other one has outside of the gaps, and nothing in them. -/
structure Snapshot.Without (s' s : Snapshot) (g : Gaps) : Prop where
  style?_gap : ∀ i ∈ g.styles, s'.style? i = none
  style?_eq : ∀ i ∉ g.styles, s'.style? i = s.style? i
  name?_gap : ∀ v ∈ g.names, s'.variableName? v = none
  name?_eq : ∀ v ∉ g.names, s'.variableName? v = s.variableName? v

theorem Snapshot.exists_without (s : Snapshot) (g : Gaps) : ∃ s' : Snapshot, s'.Without s g := by
  classical
  refine ⟨⟨s.styles.restrict (· ∉ g.styles), s.variableNames.restrict (· ∉ g.names)⟩, ?_, ?_, ?_, ?_⟩
  · exact fun i hi => (OrderedMap.find?_restrict _ _ i).trans (if_neg (not_not_intro hi))
  · exact fun i hi => (OrderedMap.find?_restrict _ _ i).trans (if_pos hi)
  · exact fun v hv => (OrderedMap.find?_restrict _ _ v).trans (if_neg (not_not_intro hv))
  · exact fun v hv => (OrderedMap.find?_restrict _ _ v).trans (if_pos hv)

namespace Host.Lapses

variable {h : Host} {s s' : Snapshot} {g : Gaps}

theorem style_soft (hh : h.Lapses s g) (i : NodeId) : (h.style i).Soft := by
  by_cases hi : i ∈ g.styles
  · obtain ⟨node, message, he⟩ := hh.style_failed i hi
    rw [he]
    trivial
  · rw [hh.style_eq i hi]
    trivial

theorem name_soft (hh : h.Lapses s g) (v : VariableId) : (h.variableName v).Soft := by
  by_cases hv : v ∈ g.names
  · rcases hh.name_missing v hv with he | ⟨node, message, he⟩
    · rw [he]
      trivial
    · rw [he]
      trivial
  · rw [hh.name_eq v hv]
    trivial

/-- No declarations and no entry come to the same. -/
theorem getD_style (hh : h.Lapses s g) (hs : s'.Without s g) (i : NodeId) :
    (h.style i).getD ∅ = s'.style i := by
  by_cases hi : i ∈ g.styles
  · obtain ⟨node, message, he⟩ := hh.style_failed i hi
    rw [he, Snapshot.style, hs.style?_gap i hi]
    rfl
  · rw [hh.style_eq i hi, Snapshot.style, Snapshot.style, hs.style?_eq i hi]
    rfl

theorem getD_name (hh : h.Lapses s g) (hs : s'.Without s g) (v : VariableId) :
    (h.variableName v).getD none = s'.variableName? v := by
  by_cases hv : v ∈ g.names
  · rw [hs.name?_gap v hv]
    rcases hh.name_missing v hv with he | ⟨node, message, he⟩
    · rw [he]
      rfl
    · rw [he]
      rfl
  · rw [hh.name_eq v hv, hs.name?_eq v hv]
    rfl

/-- What is captured from the host binds all texts as the snapshot does, which may know more. -/
theorem sameTexts (hh : h.Lapses s g) (hs : s'.Without s g) (t : Tree) :
    t.SameTexts (h.answers t) s' := by
  refine fun n hn => Binding.classify_congr fun v hv => ?_
  have hbound : v ∈ boundVariables t := mem_boundVariables.mpr ⟨n, hn, hv⟩
  rw [h.variableName?_answers hbound, hh.getD_name hs]

theorem rendered_eq (hh : h.Lapses s g) (hs : s'.Without s g) {t : Tree} (hn : t.ids.Nodup)
    (o : Options) : t.rendered o s' = t.rendered o (h.answers t) := by
  refine Tree.rendered_congr (hh.sameTexts hs t) (fun i hi => ?_) o
  rw [h.style_answers hn hi, hh.getD_style hs]

end Host.Lapses

namespace Document

/-- Faults that cost only an answer leave a request with the payloads of a snapshot by hand that
has no entry for them, though it has all other styles and names of the document. -/
theorem generate_lapsing {d : Document} {n : DocumentNode} (hn : d.root = some n) {g : Gaps}
    {h : Host} (hh : h.Lapses d.load.captured g) (schedule : Schedule) (p : Preferences) :
    (∃ s : Snapshot, s.Without d.load.captured g) ∧
      ∃ payloads, d.load.scene.generate h schedule p = .result (.ok payloads) ∧
        ∀ s : Snapshot, s.Without d.load.captured g → d.load.scene.compile s p = .ok payloads := by
  refine ⟨Snapshot.exists_without _ g, ?_⟩
  obtain ⟨t, ht, hsh, -⟩ := (Scene.Built.load d).forest.rootTree?_shows (root_load hn)
  have hnodup := hsh.nodup_ids (Scene.Built.load d).forest
  have hquery := h.query_eq_answers schedule (t := t) (fun i _ => hh.style_soft i)
    fun v _ => hh.name_soft v
  have hgenerate : d.load.scene.generate h schedule p =
      .result (.ok
        (p.variants.map (Payload.ofComponents · (t.rendered p.options (h.answers t))))) := by
    rw [Scene.generate_of_rootTree? ht, hquery]
    rfl
  refine ⟨_, hgenerate, fun s hs => ?_⟩
  rw [Scene.compile_of_rootTree? ht, hh.rendered_eq hs hnodup]

/-- A page with a title and a footer that shows a price. -/
def pricePage : Document where
  root := some (.mk (.plain .frame "Page") ∅ (some
    [.mk { Node.plain .text "Title" with characters := some "Prices" }
        (.ofList [("color", "red")]) none,
      .mk { Node.plain .text "Footer" with characters := some "-", boundVariable := some "v" }
        (.ofList [("margin", "0")]) none]))
  variableNames := .ofList [("v", "Price"), ("w", "Total")]

/-- The style of the title and the name of the price are missing. -/
def priceGaps : Gaps := ⟨{1}, {"v"}⟩

def priceHost : Host :=
  ((Host.ofSnapshot pricePage.load.captured).withStyle 1
    (.error (.queryFailed (some 1) "detached"))).withVariable "v" (.value none)

theorem priceHost_lapses : priceHost.Lapses pricePage.load.captured priceGaps where
  style_failed := by
    rintro i rfl
    exact ⟨_, _, rfl⟩
  style_eq := fun i hi => if_neg hi
  name_missing := by
    rintro v rfl
    exact .inl rfl
  name_eq := fun v hv => if_neg hv

theorem pricePage_generate_lapsing :
    (∃ n, pricePage.root = some n) ∧ priceHost.Lapses pricePage.load.captured priceGaps ∧
      (∃ s : Snapshot, s.Without pricePage.load.captured priceGaps) ∧
      ∃ payloads,
        pricePage.load.scene.generate priceHost .inOrder .multi = .result (.ok payloads) ∧
        ∀ s : Snapshot, s.Without pricePage.load.captured priceGaps →
          pricePage.load.scene.compile s .multi = .ok payloads :=
  ⟨⟨_, rfl⟩, priceHost_lapses, generate_lapsing (d := pricePage) rfl priceHost_lapses .inOrder .multi⟩

end Document

end DesignComponents
