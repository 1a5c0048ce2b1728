import DesignComponents.Proofs.Payload.Defaults

/-! The two variants of a file. What a file says about a component is a profile: the tag and the
class, the properties and the handlers, and the lines of the style sheet and of the markup. Both
variants spell the same profiles, each in its own way, and say nothing else. -/

namespace DesignComponents

open Text (Settled Solid laid)

theorem PropertyType.break_notMem_converter (type : PropertyType) :
    '\n' ∉ type.converter.toList := by
  cases type <;> decide

namespace Payload

/-! ### Profiles -/

/-- A property as a file declares it. -/
structure Property where
  name : String
  converter : String
  typeName : String
  default : String

/-- All that a file says about a component. -/
structure Profile where
  tag : String
  className : String
  sheet : List String
  properties : List Property
  handlers : List Handler
  markup : List String

namespace Profile

def stylesSection (p : Profile) : List String :=
  ["  static styles = css\x60"] ++ p.sheet ++ ["  \x60;"]

def renderSection (p : Profile) : List String :=
  ["", "  render() \x7b", "    return html\x60"] ++ p.markup ++ ["    \x60;", "  \x7d"]

/-- A method that sends the event of its handler. -/
def handlerSection (head : String) (h : Handler) : List String :=
  ["", head, "    this.dispatchEvent(",
    "      new CustomEvent('" ++ h.name ++
      "', \x7b detail: event, bubbles: true, composed: true \x7d)",
    "    );", "  \x7d"]

/-- The static table of the properties; there is none without properties. -/
def tableSection (p : Profile) : List String :=
  if p.properties.isEmpty then []
  else
    ["  static properties = \x7b"] ++
      p.properties.map (fun q => "    " ++ q.name ++ ": \x7b type: " ++ q.converter ++ " \x7d,") ++
      ["  \x7d;", ""]

/-- The constructor that sets the defaults; there is none without properties. -/
def constructorSection (p : Profile) : List String :=
  if p.properties.isEmpty then []
  else
    ["", "  constructor() \x7b", "    super();"] ++
      p.properties.map (fun q => "    this." ++ q.name ++ " = " ++ q.default ++ ";") ++ ["  \x7d"]

/-- The lines of a component. The typed variant declares tag and properties by decorators; the
untyped one has its table and constructor, and registers the tag behind the class. -/
def lines : Variant → Profile → List String
  | .typescript, p =>
    ["", "@customElement('" ++ p.tag ++ "')",
      "export class " ++ p.className ++ " extends LitElement \x7b"] ++
      p.stylesSection ++
      p.properties.flatMap (fun q => ["", "  @property(\x7b type: " ++ q.converter ++ " \x7d)",
        "  " ++ q.name ++ ": " ++ q.typeName ++ " = " ++ q.default ++ ";"]) ++
      p.handlers.flatMap (fun h =>
        handlerSection ("  private " ++ h.method ++ "(event: " ++ h.payloadType ++ ") \x7b") h) ++
      p.renderSection ++ ["\x7d"]
  | .javascript, p =>
    ["", "export class " ++ p.className ++ " extends LitElement \x7b"] ++ p.tableSection ++
      p.stylesSection ++ p.constructorSection ++
      p.handlers.flatMap (fun h => handlerSection ("  " ++ h.method ++ "(event) \x7b") h) ++
      p.renderSection ++
      ["\x7d", "", "customElements.define('" ++ p.tag ++ "', " ++ p.className ++ ");"]

def importLines : Variant → List Profile → List String
  | .typescript, ps =>
    ["import \x7b LitElement, html, css \x7d from 'lit';",
      if ps.all (·.properties.isEmpty) then
        "import \x7b customElement \x7d from 'lit/decorators.js';"
      else "import \x7b customElement, property \x7d from 'lit/decorators.js';"]
  | .javascript, _ => ["import \x7b LitElement, html, css \x7d from 'lit';"]

/-- The lines of a file about the profiled components. -/
def fileLines (v : Variant) (ps : List Profile) : List String :=
  importLines v ps ++ ps.flatMap (lines v)

def ofComponent (c : Component) : Profile where
  tag := c.tag
  className := c.className
  sheet := (laid (sheetLines c)).map String.ofList
  properties := c.properties.map fun k =>
    ⟨k.name, k.type.converter, k.type.name, k.default.literal⟩
  handlers := c.handlers
  markup := (laid [Text.indent 6 c.markup]).map String.ofList

theorem importLines_ofComponent (v : Variant) (cs : List Component) :
    importLines v (cs.map ofComponent) = header v cs := by
  cases v with
  | typescript =>
    have hall : (cs.map ofComponent).all (·.properties.isEmpty) =
        !cs.any (!·.properties.isEmpty) := by
      rw [List.not_any_eq_all_not]
      simp [List.all_map, Function.comp_def, ofComponent]
    rw [importLines, hall, header, Typed.header]
    cases cs.any (!·.properties.isEmpty) <;> rfl
  | javascript => rfl

theorem tableSection_ofComponent (c : Component) :
    (ofComponent c).tableSection = Untyped.tableLines c.properties := by
  rw [tableSection, ofComponent]
  cases c.properties with
  | nil => rfl
  | cons k ks => simp only [List.map_map, Untyped.tableLines]; rfl

theorem constructorSection_ofComponent (c : Component) :
    (ofComponent c).constructorSection = Untyped.constructorLines c.properties := by
  rw [constructorSection, ofComponent]
  cases c.properties with
  | nil => rfl
  | cons k ks => simp only [List.map_map, Untyped.constructorLines]; rfl

/-- The lines of a component around those of its sheet and its markup. -/
theorem lines_ofComponent (v : Variant) (c : Component) :
    lines v (ofComponent c) =
      (openingLines v c ++ ["  static styles = css\x60"]) ++
        ((ofComponent c).sheet ++ "  \x60;" ::
          ((memberLines v c ++ ["", "  render() \x7b", "    return html\x60"]) ++
            ((ofComponent c).markup ++ "    \x60;" :: (["  \x7d", "\x7d"] ++ finalLines v c)))) := by
  cases v with
  | typescript =>
    have hproperties : (ofComponent c).properties.flatMap (fun q => ["",
        "  @property(\x7b type: " ++ q.converter ++ " \x7d)",
        "  " ++ q.name ++ ": " ++ q.typeName ++ " = " ++ q.default ++ ";"]) =
          c.properties.flatMap Typed.propertyLines :=
      List.flatMap_map _ _ _
    have hhandlers : (ofComponent c).handlers.flatMap (fun h => handlerSection
        ("  private " ++ h.method ++ "(event: " ++ h.payloadType ++ ") \x7b") h) =
          c.handlers.flatMap Typed.handlerLines := rfl
    simp only [lines, hproperties, hhandlers, memberLines, stylesSection, renderSection,
      List.append_assoc, List.cons_append, List.nil_append]
    rfl
  | javascript =>
    have hhandlers : (ofComponent c).handlers.flatMap
        (fun h => handlerSection ("  " ++ h.method ++ "(event) \x7b") h) =
          c.handlers.flatMap Untyped.handlerLines := rfl
    simp only [lines, hhandlers, tableSection_ofComponent, constructorSection_ofComponent,
      openingLines, memberLines, stylesSection, renderSection,
      List.append_assoc, List.cons_append, List.nil_append]
    rfl

end Profile

/-! ### Lines that stay as they are -/

/-- No name in a component breaks the line it stands on. -/
structure Component.Unbroken (c : Component) : Prop where
  tag : '\n' ∉ c.tag.toList
  className : '\n' ∉ c.className.toList
  properties : ∀ k ∈ c.properties, '\n' ∉ k.name.toList
  handlers : ∀ h ∈ c.handlers,
    '\n' ∉ h.name.toList ∧ '\n' ∉ h.method.toList ∧ '\n' ∉ h.payloadType.toList

theorem solid_stylesLine : Solid "  static styles = css\x60" := by decide

theorem solid_braceLine : Solid "  \x7d" := by decide

/-- The table ends with a blank line, which stays because of what follows. -/
theorem settled_tableLines {ks : List Token} (h : ∀ k ∈ ks, '\n' ∉ k.name.toList) :
    Settled (Untyped.tableLines ks ++ ["  static styles = css\x60"]) := by
  cases ks with
  | nil => exact .line solid_stylesLine .nil
  | cons k ks =>
    have hopen : Solid "  static properties = \x7b" := by decide
    have hclose : Solid "  \x7d;" := by decide
    have hrows : ∀ k' ∈ k :: ks,
        Solid ("    " ++ k'.name ++ ": \x7b type: " ++ k'.type.converter ++ " \x7d,") :=
      fun k' hk => Solid.append_left (by decide)
        (by simp [h k' hk, k'.type.break_notMem_converter])
    have htable := Settled.line hopen ((Settled.map hrows).append
      (.line hclose (.blank solid_stylesLine .nil)))
    simpa only [Untyped.tableLines, List.append_assoc, List.cons_append, List.nil_append]
      using htable

theorem settled_constructorLines {ks : List Token} (h : ∀ k ∈ ks, '\n' ∉ k.name.toList) :
    Settled (Untyped.constructorLines ks) := by
  cases ks with
  | nil => exact .nil
  | cons k ks =>
    have hopen : Solid "  constructor() \x7b" := by decide
    have hsuper : Solid "    super();" := by decide
    have hrows : ∀ k' ∈ k :: ks, Solid (defaultLine .javascript k') :=
      fun k' hk => solid_defaultLine (h k' hk) .javascript
    exact .blank hopen (.line hsuper ((Settled.map hrows).append (.line solid_braceLine .nil)))

theorem settled_propertyLines {k : Token} (h : '\n' ∉ k.name.toList) :
    Settled (Typed.propertyLines k) := by
  have hdecorator : Solid ("  @property(\x7b type: " ++ k.type.converter ++ " \x7d)") :=
    Solid.append_left (by decide) (by simp [k.type.break_notMem_converter])
  exact .blank hdecorator (.line (solid_defaultLine h .typescript) .nil)

theorem settled_dispatchLines {h : Handler} (hn : '\n' ∉ h.name.toList) :
    Settled (dispatchLines h) := by
  have hopen : Solid "    this.dispatchEvent(" := by decide
  have hclose : Solid "    );" := by decide
  have hevent : Solid ("      new CustomEvent('" ++ h.name ++
      "', \x7b detail: event, bubbles: true, composed: true \x7d)") :=
    Solid.append_left (by decide) (by simp [hn])
  exact .line hopen (.line hevent (.line hclose (.line solid_braceLine .nil)))

namespace Component.Unbroken

variable {c : Component}

theorem solid_classLine (h : c.Unbroken) : Solid (classLine c) :=
  Solid.append_left (by decide) (by simp [h.className])

theorem solid_defineLine (h : c.Unbroken) : Solid (Untyped.defineLine c) :=
  Solid.append_left (by decide) (by simp [h.tag, h.className])

/-- What stands around the sheet and the markup of a component stays as it is. -/
theorem settled_openingLines (h : c.Unbroken) (v : Variant) :
    Settled (openingLines v c ++ ["  static styles = css\x60"]) := by
  cases v with
  | typescript =>
    have htag : Solid ("@customElement('" ++ c.tag ++ "')") :=
      Solid.append_left (by decide) (by simp [h.tag])
    exact .blank htag (.line h.solid_classLine (.line solid_stylesLine .nil))
  | javascript => exact .blank h.solid_classLine (settled_tableLines h.properties)

theorem settled_memberLines (h : c.Unbroken) (v : Variant) : Settled (memberLines v c) := by
  cases v with
  | typescript =>
    refine (Settled.flatMap fun k hk => settled_propertyLines (h.properties k hk)).append
      (Settled.flatMap fun g hg => ?_)
    obtain ⟨hname, hmethod, htype⟩ := h.handlers g hg
    have hhead : Solid ("  private " ++ g.method ++ "(event: " ++ g.payloadType ++ ") \x7b") :=
      Solid.append_left (by decide) (by simp [hmethod, htype])
    exact .blank hhead (settled_dispatchLines hname)
  | javascript =>
    refine (settled_constructorLines h.properties).append (Settled.flatMap fun g hg => ?_)
    obtain ⟨hname, hmethod, -⟩ := h.handlers g hg
    have hhead : Solid ("  " ++ g.method ++ "(event) \x7b") :=
      Solid.append_left (by decide) (by simp [hmethod])
    exact .blank hhead (settled_dispatchLines hname)

theorem settled_finalLines (h : c.Unbroken) (v : Variant) :
    Settled (["  \x7d", "\x7d"] ++ finalLines v c) := by
  have hend : Solid "\x7d" := by decide
  cases v with
  | typescript => exact .line solid_braceLine (.line hend .nil)
  | javascript => exact .line solid_braceLine (.line hend (.blank h.solid_defineLine .nil))

/-- A component is laid out as the lines of its profile. -/
theorem laid_componentLines (h : c.Unbroken) (v : Variant) :
    laid (componentLines v c) = (Profile.lines v (.ofComponent c)).map String.toList := by
  have hsheet : Solid "  \x60;" := by decide
  have hmarkup : Solid "    \x60;" := by decide
  have hrender : Settled ["", "  render() \x7b", "    return html\x60"] :=
    .blank (by decide) (.line (by decide) .nil)
  have hparts : componentLines v c = (openingLines v c ++ ["  static styles = css\x60"]) ++
      (sheetLines c ++ "  \x60;" ::
        ((memberLines v c ++ ["", "  render() \x7b", "    return html\x60"]) ++
          ([Text.indent 6 c.markup] ++ "    \x60;" :: (["  \x7d", "\x7d"] ++ finalLines v c)))) := by
    rw [componentLines_eq, closingLines_eq]
    simp only [stylesLines, sheetLines, renderLines, List.append_assoc, List.cons_append,
      List.nil_append]
  have hread : ∀ ls : List (List Char), (ls.map String.ofList).map String.toList = ls := by
    intro ls
    rw [List.map_map]
    exact (List.map_congr_left fun l _ => String.toList_ofList).trans (List.map_id ls)
  rw [hparts, (h.settled_openingLines v).laid_append, Text.laid_cut _ hsheet,
    ((h.settled_memberLines v).append hrender).laid_append, Text.laid_cut _ hmarkup,
    (h.settled_finalLines v).laid_eq, Profile.lines_ofComponent]
  simp only [Profile.ofComponent, List.map_append, List.map_cons, hread]

end Component.Unbroken

/-- A file has the lines that tell the profiles of its components, and no others. -/
theorem lines_source_eq_fileLines {cs : List Component} (h : ∀ c ∈ cs, c.Unbroken) (v : Variant) :
    Text.lines (source v cs).toList =
      (Profile.fileLines v (cs.map .ofComponent)).map String.toList := by
  rw [lines_source, Profile.fileLines, Profile.importLines_ofComponent, List.map_append,
    List.flatMap_map, List.map_flatMap]
  exact congrArg _ (List.flatMap_congr fun c hc => (h c hc).laid_componentLines v)

/-- The profile says what the descriptor says. -/
structure Tells (d : Descriptor) (p : Profile) : Prop where
  tag_eq : p.tag = d.tag
  className_eq : p.className = d.className
  properties_eq : p.properties = d.properties.map fun k =>
    ⟨k.name, k.type.converter, k.type.name, k.default.literal⟩
  handlers_eq : p.handlers = d.events.map fun e => ⟨e.name, e.handler, e.trigger.payloadType⟩

theorem tells_ofDescriptor (d : Descriptor) (markup : String) :
    Tells d (.ofComponent (.ofDescriptor d markup)) :=
  ⟨rfl, rfl, rfl, rfl⟩

end Payload

namespace Tree

variable {o : Options} {s : Snapshot} {t : Tree}

/-- The names that a plan gives break no line. -/
theorem unbroken_of_mem_rendered {c : Payload.Component} (h : c ∈ t.rendered o s) :
    c.Unbroken := by
  obtain ⟨d, hd, rfl⟩ := List.mem_map.mp h
  obtain ⟨site, -, rfl⟩ := List.mem_map.mp hd
  have hnames : ∀ space entity, '\n' ∉ ((t.plan o s).nameOf space entity).toList :=
    fun space entity => ((lettered_plan o s t).nameOf space entity).notMem (by decide)
  refine ⟨hnames .tag _, hnames .className _, fun k hk => ?_, fun g hg => ?_⟩
  · have hk' := lettered_of_mem_propertyNames (List.mem_map_of_mem hk)
    exact hk'.notMem (by decide)
  · obtain ⟨e, he, rfl⟩ := List.mem_map.mp hg
    obtain ⟨-, hname, hhandler⟩ := signal_of_mem_events he
    have hslug : '\n' ∉ e.trigger.slug.toList := by cases e.trigger <;> decide
    have htype : '\n' ∉ e.trigger.payloadType.toList := by cases e.trigger <;> decide
    refine ⟨?_, ?_, htype⟩
    · have htag : '\n' ∉ ((t.environment o s).tagOf e.origin).toList := hnames .tag _
      simp [hname, eventName, htag, hslug]
    · rw [hhandler]
      exact hnames .member _

end Tree

namespace Scene

/-- The payloads of one request say the same about the same components: each is the lines that tell
the profiles of all components, in order, in the way of its variant. -/
theorem variants_agree {scene : Scene} (hb : scene.Built) {r : NodeId} (hr : scene.root = some r)
    (s : Snapshot) (p : Preferences) :
    ∃ ds payloads profiles, scene.components s p.options = .ok ds ∧
      scene.compile s p = .ok payloads ∧ List.Forall₂ Payload.Tells ds profiles ∧
      List.Forall₂ (fun v payload => payload.language = Variant.label v ∧
        Text.lines payload.code.toList =
          (Payload.Profile.fileLines v profiles).map String.toList) p.variants payloads := by
  obtain ⟨t, ht, -, -⟩ := hb.forest.rootTree?_shows hr
  refine ⟨_, _, (t.rendered p.options s).map .ofComponent,
    components_of_rootTree? ht s p.options, compile_of_rootTree? ht s p, ?_, ?_⟩
  · rw [Tree.rendered, List.map_map, List.forall₂_map_right_iff, List.forall₂_same]
    exact fun d _ => Payload.tells_ofDescriptor d _
  · rw [List.forall₂_map_right_iff, List.forall₂_same]
    exact fun v _ => ⟨rfl, Payload.lines_source_eq_fileLines
      (fun c hc => Tree.unbroken_of_mem_rendered hc) v⟩

theorem labelPage_variants_agree :
    let p : Preferences := ⟨.multi, none, .inline, [.typescript, .javascript]⟩
    labelPage.Built ∧ labelPage.root = some 0 ∧
      ∃ ds payloads profiles, labelPage.components .empty p.options = .ok ds ∧
        labelPage.compile .empty p = .ok payloads ∧ List.Forall₂ Payload.Tells ds profiles ∧
        List.Forall₂ (fun v payload => payload.language = Variant.label v ∧
          Text.lines payload.code.toList =
            (Payload.Profile.fileLines v profiles).map String.toList) p.variants payloads :=
  ⟨labelPage_built, rfl, variants_agree labelPage_built (r := 0) rfl .empty _⟩

end Scene

end DesignComponents
