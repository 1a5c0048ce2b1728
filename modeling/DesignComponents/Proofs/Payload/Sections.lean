import DesignComponents.Payload.Source
import DesignComponents.Proofs.Text.Parts

/-! Sections of generated source. In both variants a file is a header and its components, and a
component is its style sheet with what stands before and behind it. The source starts and ends
in a line with something on it, so the clean layout keeps all of its lines. -/

namespace DesignComponents.Payload

open Text (EndsInInk Framed Keeps Settled Solid laid layOut lines partLines)

def header : Variant → List Component → List String
  | .typescript, cs => Typed.header cs
  | .javascript, _ => Untyped.header

def componentLines : Variant → Component → List String
  | .typescript, c => Typed.componentLines c
  | .javascript, c => Untyped.componentLines c

/-- What stands in front of the style sheet. -/
def openingLines : Variant → Component → List String
  | .typescript, c => ["", "@customElement('" ++ c.tag ++ "')", classLine c]
  | .javascript, c => ["", classLine c] ++ Untyped.tableLines c.properties

/-- The lines of a style sheet. -/
def sheetLines (c : Component) : List String := c.rules.flatMap ruleLines

/-- What stands behind the style sheet. -/
def closingLines : Variant → Component → List String
  | .typescript, c =>
    c.properties.flatMap Typed.propertyLines ++ c.handlers.flatMap Typed.handlerLines ++
      renderLines c
  | .javascript, c =>
    Untyped.constructorLines c.properties ++ c.handlers.flatMap Untyped.handlerLines ++
      renderLines c ++ ["", Untyped.defineLine c]

/-- The properties and handlers behind the style sheet. -/
def memberLines : Variant → Component → List String
  | .typescript, c =>
    c.properties.flatMap Typed.propertyLines ++ c.handlers.flatMap Typed.handlerLines
  | .javascript, c =>
    Untyped.constructorLines c.properties ++ c.handlers.flatMap Untyped.handlerLines

/-- What stands behind the class. -/
def finalLines : Variant → Component → List String
  | .typescript, _ => []
  | .javascript, c => ["", Untyped.defineLine c]

theorem closingLines_eq (v : Variant) (c : Component) :
    closingLines v c = memberLines v c ++ renderLines c ++ finalLines v c := by
  cases v with
  | typescript => rw [closingLines, memberLines, finalLines, List.append_nil]
  | javascript => rfl

theorem sourceLines_eq (v : Variant) (cs : List Component) :
    sourceLines v cs = header v cs ++ cs.flatMap (componentLines v) := by
  cases v <;> rfl

theorem componentLines_eq (v : Variant) (c : Component) :
    componentLines v c = openingLines v c ++ stylesLines c ++ closingLines v c := by
  cases v with
  | typescript =>
    simp only [componentLines, Typed.componentLines, openingLines, closingLines,
      List.append_assoc]
  | javascript =>
    simp only [componentLines, Untyped.componentLines, openingLines, closingLines,
      List.append_assoc]

theorem solid_libraryLine : Solid libraryLine := by decide

/-- The line with the decorators, which are all that a header depends on its components for. -/
theorem solid_decoratorsLine (property : Bool) :
    Solid ("import \x7b customElement" ++ (if property then ", property" else "") ++
      " \x7d from 'lit/decorators.js';") := by
  cases property <;> exact by decide

theorem settled_header (v : Variant) (cs : List Component) : Settled (header v cs) := by
  cases v with
  | typescript => exact .line solid_libraryLine (.line (solid_decoratorsLine _) .nil)
  | javascript => exact .line solid_libraryLine .nil

theorem endsInInk_header (v : Variant) (cs : List Component) : EndsInInk (header v cs) := by
  cases v with
  | typescript =>
    have hlast : " \x7d from 'lit/decorators.js';".toList.getLast? = some ';' := by decide
    exact Text.endsInInk_concat [libraryLine] (Text.getLast?_toList_append _ hlast) (by decide)
  | javascript =>
    have hlast : libraryLine.toList.getLast? = some ';' := by decide
    exact Text.endsInInk_concat [] hlast (by decide)

theorem endsInInk_componentLines (v : Variant) (c : Component) :
    EndsInInk (componentLines v c) := by
  rw [componentLines_eq]
  cases v with
  | typescript =>
    have hlast : "\x7d".toList.getLast? = some '\x7d' := by decide
    have hrender : EndsInInk (renderLines c) :=
      Text.endsInInk_concat (renderLines c).dropLast hlast (by decide)
    exact (hrender.append_left _).append_left _
  | javascript =>
    have hlast : ");".toList.getLast? = some ';' := by decide
    have hdefine : EndsInInk ["", Untyped.defineLine c] :=
      Text.endsInInk_concat [""] (Text.getLast?_toList_append _ hlast) (by decide)
    exact (hdefine.append_left _).append_left _

theorem endsInInk_sourceLines (v : Variant) (cs : List Component) :
    EndsInInk (sourceLines v cs) := by
  rw [sourceLines_eq]
  rcases List.eq_nil_or_concat cs with rfl | ⟨cs, c, rfl⟩
  · rw [List.flatMap_nil, List.append_nil]
    exact endsInInk_header v []
  · rw [List.concat_eq_append, List.flatMap_append, List.flatMap_singleton]
    exact ((endsInInk_componentLines v c).append_left _).append_left _

theorem framed_sourceLines (v : Variant) (cs : List Component) :
    Framed ((sourceLines v cs).flatMap partLines) := by
  have hfirst : ∃ ls, sourceLines v cs = libraryLine :: ls := by
    cases v <;> exact ⟨_, rfl⟩
  obtain ⟨ls, hls⟩ := hfirst
  refine ⟨⟨libraryLine.toList, ls.flatMap partLines, ?_, solid_libraryLine.trimEnd_ne_nil⟩,
    (endsInInk_sourceLines v cs).exists_lines_concat⟩
  rw [hls, List.flatMap_cons, solid_libraryLine.partLines_eq]
  rfl

theorem source_eq_layOut (v : Variant) (cs : List Component) :
    source v cs = layOut (sourceLines v cs) :=
  Text.tidy_join (framed_sourceLines v cs)

/-- The components are laid out one by one, behind a header that stays as it is. -/
theorem laid_sourceLines (v : Variant) (cs : List Component) :
    laid (sourceLines v cs) =
      (header v cs).map String.toList ++ cs.flatMap fun c => laid (componentLines v c) := by
  rw [sourceLines_eq, (settled_header v cs).laid_append,
    Text.laid_flatMap (endsInInk_componentLines v)]

theorem lines_source (v : Variant) (cs : List Component) :
    lines (source v cs).toList =
      (header v cs).map String.toList ++ cs.flatMap fun c => laid (componentLines v c) := by
  rw [source_eq_layOut, Text.lines_layOut, laid_sourceLines]

/-- Generated source has the lines that were put together, trimmed, and no others. -/
theorem keeps_source (v : Variant) (cs : List Component) :
    Keeps ((sourceLines v cs).flatMap partLines) (lines (source v cs).toList) := by
  rw [source_eq_layOut]
  exact Text.keeps_layOut _

end DesignComponents.Payload
