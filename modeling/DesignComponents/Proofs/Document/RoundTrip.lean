import DesignComponents.Document.Reader
import DesignComponents.Proofs.Document.Loading
import DesignComponents.Proofs.Json.Records
import DesignComponents.Proofs.Json.Values

/-! Reading documents back. A document that is printed is read as itself, as long as its brackets
nest no deeper than any text may; a document that nests deeper is refused. The values of its
properties have to be those that are read back. -/

namespace DesignComponents

open Json (Decodes Takes Reader)

theorem PropertyValue.decodes_read {v : PropertyValue} (h : v.value.Exact) :
    Decodes read v.toJson v := by
  have hkind : Decodes (fun depth => Reader.choice depth PropertyKind.names) (.string v.kind.name)
      v.kind := Json.decodes_choice (by cases v.kind <;> rfl)
  have hfields : Takes (fun depth => (record depth).objectField)
      [("type", .string v.kind.name), ("value", v.value)] ⟨none, none⟩
      ⟨some v.kind, some v.value⟩ :=
    (Json.takes_field (fun _ => rfl) (fun _ => rfl) (hkind.bind fun _ => rfl)).append
      (Json.takes_field (fun _ => rfl) (fun _ => rfl) ((Json.decodes_value h).bind fun _ => rfl))
  exact (Json.decodes_record hfields (fun _ => record) fun _ => rfl).bind fun _ => rfl

namespace Reaction

theorem decodes_readTrigger (t : String) :
    Decodes readTrigger (.object [("type", .string t)]) t :=
  (Json.decodes_record (Json.takes_field (fun _ => rfl) (fun _ => rfl)
    ((Json.decodes_string t).map some)) _ fun _ => rfl).bind fun _ => rfl

/-- The trigger is always written, as null if it is missing. -/
theorem decodes_read (r : Reaction) : Decodes read r.toJson r := by
  have htrigger : Decodes (fun depth => Reader.optional (readTrigger depth))
      (Json.ofOption (fun t => .object [("type", .string t)]) r.trigger) r.trigger := by
    cases r.trigger with
    | none => exact Json.decodes_optional_null readTrigger
    | some t => exact (decodes_readTrigger t).optional nofun
  exact (Json.decodes_record (Json.takes_field (fun _ => rfl) (fun _ => rfl)
    (htrigger.map some)) _ fun _ => rfl).bind fun _ => rfl

end Reaction

/-- The values of the properties that a node defines or sets are read back. -/
def Node.Exact (n : Node) : Prop := ∀ e ∈ n.definitions.entries ++ n.values.entries, e.2.value.Exact

namespace DocumentNode

/-- What reads the children of a node, inside of its braces. -/
def readChild : Nat → Reader DocumentNode
  | 0 => Json.Reader.fail .tooDeep
  | depth + 1 => read depth

/-- The step from one field of a node to the next. -/
def fieldStep (depth : Nat) : String → Partial → Reader Partial :=
  (record (readChild depth) depth).objectField

theorem read_eq : read = fun depth => readWith depth (readChild (depth - 1)) := by
  funext depth
  match depth with
  | 0 => rfl
  | 1 => rfl
  | _ + 2 => rfl

/-- A field that is left out when its value is missing leaves its place empty then. -/
theorem takes_optionalField {α : Type} {name : String} {f : α → Json} {a : Option α}
    (put : Option (Option α) → Partial)
    (h : ∀ b, a = some b → Takes fieldStep [(name, f b)] (put none) (put (some (some b)))) :
    Takes fieldStep (optionalField name f a) (put none) (put (a.map some)) := by
  cases a with
  | none => exact .nil (put none)
  | some b => exact h b rfl

theorem decodes_properties {m : PropertyMap} (h : ∀ e ∈ m.entries, e.2.value.Exact) :
    Decodes (fun depth => Reader.map depth PropertyValue.read) (m.toJson PropertyValue.toJson) m :=
  Json.decodes_map fun e he => PropertyValue.decodes_read (h e he)

theorem decodes_reactions (rs : List Reaction) :
    Decodes (fun depth => Reader.list depth (Reaction.read (depth - 1)))
      (.array (rs.map Reaction.toJson)) rs := by
  have hall : List.Forall₂ (Decodes Reaction.read) (rs.map Reaction.toJson) rs := by
    rw [List.forall₂_map_left_iff, List.forall₂_same]
    exact fun r _ => r.decodes_read
  exact Json.decodes_list hall (fun depth => Reaction.read (depth - 1)) fun _ => rfl

/-- The fields of a node are taken one after the other if its children are read back. -/
theorem takes_fields {node : Node} (h : node.Exact) (css : Declarations)
    {children : Option (List DocumentNode)}
    (hchildren : ∀ ns, children = some ns → List.Forall₂ (Decodes read) (toJsonAll ns) ns) :
    ∃ fields, toJson (mk node css children) = .object fields ∧
      Takes fieldStep fields .start
        ⟨some node.name, some node.kind, children.map some, node.characters.map some, some css,
          some node.reactions, node.boundVariable.map some, some node.definitions, some node.values,
          some node.references⟩ := by
  have hoptional (t : String) :
      Decodes (fun _ => Reader.optional Reader.string) (.string t) (some t) :=
    (Json.decodes_string t).optional nofun
  -- The states that are gathered, in the order of the fields.
  let named : Partial := { Partial.start with name := some node.name, kind := some node.kind }
  let parent : Partial := { named with children := children.map some }
  let written : Partial := { parent with characters := node.characters.map some }
  let styled : Partial := { written with css := some css, reactions := some node.reactions }
  let bound : Partial := { styled with boundVariable := node.boundVariable.map some }
  have hnamed : Takes fieldStep [("name", .string node.name), ("type", .string node.kind.name)]
      .start named :=
    (Json.takes_field (fun _ => rfl) (fun _ => rfl)
      ((Json.decodes_string node.name).bind fun _ => rfl)).append
    (Json.takes_field (fun _ => rfl) (fun _ => rfl)
      ((Json.decodes_string node.kind.name).bind fun _ => by rw [NodeKind.ofName_name]; rfl))
  have hparent : Takes fieldStep
      (optionalField "children" (fun ns => .array (toJsonAll ns)) children) named parent :=
    takes_optionalField (fun c => { named with children := c }) fun ns hns =>
      Json.takes_field (fun _ => rfl) (fun _ => rfl) (((Json.decodes_list (hchildren ns hns)
        readChild fun _ => rfl).optional nofun).bind fun _ => rfl)
  have hwritten : Takes fieldStep (optionalField "characters" .string node.characters)
      parent written :=
    takes_optionalField (fun c => { parent with characters := c }) fun t _ =>
      Json.takes_field (fun _ => rfl) (fun _ => rfl) ((hoptional t).bind fun _ => rfl)
  have hstyled : Takes fieldStep
      [("css", css.toJson .string), ("reactions", .array (node.reactions.map Reaction.toJson))]
      written styled :=
    (Json.takes_field (fun _ => rfl) (fun _ => rfl)
      ((Json.decodes_stringMap css).bind fun _ => rfl)).append
    (Json.takes_field (fun _ => rfl) (fun _ => rfl)
      ((decodes_reactions node.reactions).bind fun _ => rfl))
  have hbound : Takes fieldStep (optionalField "boundVariable" .string node.boundVariable)
      styled bound :=
    takes_optionalField (fun c => { styled with boundVariable := c }) fun t _ =>
      Json.takes_field (fun _ => rfl) (fun _ => rfl) ((hoptional t).bind fun _ => rfl)
  have hlast : Takes fieldStep
      [("componentPropertyDefinitions", node.definitions.toJson PropertyValue.toJson),
        ("componentProperties", node.values.toJson PropertyValue.toJson),
        ("componentPropertyReferences", node.references.toJson .string)]
      bound { bound with definitions := some node.definitions, values := some node.values,
                         references := some node.references } :=
    ((Json.takes_field (fun _ => rfl) (fun _ => rfl)
      ((decodes_properties fun e he => h e (List.mem_append_left _ he)).bind fun _ => rfl)).append
    (Json.takes_field (fun _ => rfl) (fun _ => rfl)
      ((decodes_properties fun e he => h e (List.mem_append_right _ he)).bind fun _ => rfl))).append
    (Json.takes_field (fun _ => rfl) (fun _ => rfl)
      ((Json.decodes_stringMap node.references).bind fun _ => rfl))
  refine ⟨_, ?_, ((((hnamed.append hparent).append hwritten).append hstyled).append hbound).append
    hlast⟩
  cases children <;> rfl

theorem getD_map_some {α : Type} (a : Option α) : (a.map some).getD none = a := by
  cases a <;> rfl

/-- A node is read back if its children are. -/
theorem decodes_read {n : DocumentNode} (h : n.node.Exact)
    (hchildren : List.Forall₂ (Decodes read) (toJsonAll n.childList) n.childList) :
    Decodes read n.toJson n := by
  obtain ⟨node, css, children⟩ := n
  have hlisted : ∀ ns, children = some ns → List.Forall₂ (Decodes read) (toJsonAll ns) ns := by
    rintro ns rfl
    exact hchildren
  obtain ⟨fields, hjson, hfields⟩ := takes_fields (show node.Exact from h) css hlisted
  have hrecord := Json.decodes_record hfields (fun depth => record (readChild (depth - 1)))
    fun _ => rfl
  rw [read_eq, hjson]
  refine hrecord.bind fun rest => ?_
  simp only [getD_map_some]
  rfl

theorem decodes_readAll (ns : List DocumentNode) (h : ∀ n ∈ preorderAll ns, n.node.Exact) :
    List.Forall₂ (Decodes read) (toJsonAll ns) ns := by
  -- the pre-order of siblings is the first one, what is below it, and the pre-order of the others
  induction ns using siblings_induct with
  | nil => exact .nil
  | cons n ns hbelow hnext _ =>
    rw [preorderAll_cons, List.forall_mem_cons, preorderAll_append] at h
    have hn := decodes_read h.1 (hbelow fun m hm => h.2 m (List.mem_append_left _ hm))
    exact .cons hn (hnext fun m hm => h.2 m (List.mem_append_right _ hm))

end DocumentNode

namespace Document

/-- The values of all properties are read back. -/
def Exact (d : Document) : Prop := ∀ n ∈ d.nodes, n.node.Exact

/-- The root is always written, as null if it is missing. -/
theorem decodes_read {d : Document} (h : d.Exact) : Decodes read d.toJson d := by
  obtain ⟨root, variableNames⟩ := d
  have hroot : Decodes (fun depth => Reader.optional (DocumentNode.read depth))
      (Json.ofOption DocumentNode.toJson root) root := by
    cases root with
    | none => exact Json.decodes_optional_null DocumentNode.read
    | some n =>
      have hn : Decodes DocumentNode.read n.toJson n := by
        cases DocumentNode.decodes_readAll [n] h with
        | cons hn _ => exact hn
      exact hn.optional (by rcases n with ⟨node, css, - | children⟩ <;> exact nofun)
  have hfields : Takes (fun depth => (record depth).objectField)
      [("root", Json.ofOption DocumentNode.toJson root),
        ("variables", variableNames.toJson .string)]
      ⟨none, none⟩ ⟨some root, some variableNames⟩ :=
    (Json.takes_field (fun _ => rfl) (fun _ => rfl) (hroot.bind fun _ => rfl)).append
    (Json.takes_field (fun _ => rfl) (fun _ => rfl)
      ((Json.decodes_stringMap variableNames).bind fun _ => rfl))
  exact (Json.decodes_record hfields (fun _ => record) fun _ => rfl).bind fun _ => rfl

/-- A document within the limit is read back, any other is too deep. -/
theorem parse_print {d : Document} (h : d.Exact) :
    parse d.print = if d.toJson.nesting ≤ Json.depthLimit then .ok d else .error .tooDeep := by
  have hread := (decodes_read h).reads Json.depthLimit [] Json.ends_nil
  rw [List.append_nil] at hread
  show (read Json.depthLimit d.toJson.text >>= fun r => _) = _
  rw [hread]
  split_ifs <;> rfl

/-- What is read from a document's text is the document, so loading it gives the same scene and the
same captured answers. The only text that is refused is one that nests too deep. -/
theorem parse_print_roundTrip (d : Document) (h : d.Exact) :
    (d.toJson.nesting ≤ Json.depthLimit →
      parse d.print = .ok d ∧ (parse d.print).map load = .ok d.load) ∧
    (Json.depthLimit < d.toJson.nesting → parse d.print = .error .tooDeep) := by
  refine ⟨fun hle => ?_, fun hlt => ?_⟩
  · have hd : parse d.print = .ok d := by rw [parse_print h, if_pos hle]
    exact ⟨hd, by rw [hd]; rfl⟩
  · rw [parse_print h, if_neg (Nat.not_le.mpr hlt)]

/-- A set of a badge, with and without a list of children, reactions to a click, to nothing and to
an unknown trigger, and properties of all kinds. -/
def badgeSet : Document where
  root := some <| .mk
    { Node.plain .componentSet "Badges" with
      definitions := .ofList
        [("Label#1:0", ⟨.text, .string "a \"b\"\n"⟩), ("Icon#1:1", ⟨.boolean, .bool true⟩),
          ("Swap#1:2", ⟨.instanceSwap, .object [("id", .null), ("of", .array [.string "é"])]⟩)]
      reactions := [⟨none⟩, .on .click, ⟨some "DRAG"⟩] }
    (.ofList [("width", "8px"), ("color", "red")])
    (some
      [.mk { Node.plain .componentInstance "One" with
          values := .ofList [("Size", ⟨.variant, .number (.integer ⟨-3, by decide, by decide⟩)⟩)]
          boundVariable := some "v1" } ∅ (some []),
        .mk { Node.plain .text "Two" with
          characters := some "\t"
          references := .ofList [("characters", "Label#1:0")] } ∅ none])
  variableNames := .ofList [("v2", "Gap"), ("v1", "")]

theorem badgeSet_roundTrip :
    badgeSet.Exact ∧ badgeSet.toJson.nesting ≤ Json.depthLimit ∧
      parse badgeSet.print = .ok badgeSet := by
  have hobject : (Json.object [("id", .null), ("of", .array [.string "é"])]).Exact :=
    .object (List.forall_mem_cons.mpr ⟨.null, List.forall_mem_singleton.mpr
      (.array (List.forall_mem_singleton.mpr (.string "é")))⟩) (by decide)
  have hexact : badgeSet.Exact := by
    refine List.forall_mem_cons.mpr ⟨?_, List.forall_mem_cons.mpr ⟨?_,
      List.forall_mem_singleton.mpr ?_⟩⟩
    · show ∀ e ∈ [_, _, _], _
      exact List.forall_mem_cons.mpr ⟨.string _, List.forall_mem_cons.mpr ⟨.bool _,
        List.forall_mem_singleton.mpr hobject⟩⟩
    · show ∀ e ∈ [_], _
      exact List.forall_mem_singleton.mpr (.integer _)
    · exact List.forall_mem_nil _
  have hnesting : badgeSet.toJson.nesting ≤ Json.depthLimit := by decide
  exact ⟨hexact, hnesting, ((parse_print_roundTrip badgeSet hexact).1 hnesting).1⟩

end Document

end DesignComponents
