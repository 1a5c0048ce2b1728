import DesignComponents.Proofs.Payload.Sections
import DesignComponents.Proofs.Text.Indentation

/-! The literals of markup. Between the lines that open and close its literal, a file holds the
markup of a component line by line, shifted and trimmed; apart from white space and blank lines
nothing of any markup is changed. -/

namespace DesignComponents.Payload

open Text (Keeps Solid inked isBlankLine laid lines partLines trimEnd visible)

/-- The lines of a file, cut at the literal of one component's markup. What comes before the
literal and behind it keeps the lines that were put together for them. -/
structure CutAtMarkup (v : Variant) (before : List Component) (c : Component)
    (after : List Component) (start literal rest : List (List Char)) : Prop where
  lines_eq : lines (source v (before ++ c :: after)).toList =
    start ++ "    return html\x60".toList :: (literal ++ "    \x60;".toList :: rest)
  start_keeps : Keeps ((header v (before ++ c :: after) ++ before.flatMap (componentLines v) ++
    openingLines v c ++ stylesLines c ++ memberLines v c ++ ["", "  render() \x7b"]).flatMap
      partLines) start
  rest_keeps : Keeps ((["  \x7d", "\x7d"] ++ finalLines v c ++
    after.flatMap (componentLines v)).flatMap partLines) rest

theorem cutAtMarkup (v : Variant) (before : List Component) (c : Component)
    (after : List Component) :
    ∃ start rest, CutAtMarkup v before c after start (laid [Text.indent 6 c.markup]) rest := by
  have hopen : Solid "    return html\x60" := by decide
  have hclose : Solid "    \x60;" := by decide
  refine ⟨laid _, laid _, ?_, Text.keeps_laid _, Text.keeps_laid _⟩
  have hparts : sourceLines v (before ++ c :: after) =
      (header v (before ++ c :: after) ++ before.flatMap (componentLines v) ++ openingLines v c ++
          stylesLines c ++ memberLines v c ++ ["", "  render() \x7b"]) ++
        "    return html\x60" :: ([Text.indent 6 c.markup] ++ "    \x60;" ::
          (["  \x7d", "\x7d"] ++ finalLines v c ++ after.flatMap (componentLines v))) := by
    rw [sourceLines_eq, List.flatMap_append, List.flatMap_cons, componentLines_eq, closingLines_eq]
    simp [renderLines]
  rw [source_eq_layOut, Text.lines_layOut, hparts, Text.laid_cut _ hopen, Text.laid_cut _ hclose]

/-- In every file and both variants, the lines between those that open and close the literal of a
component's markup are those of the markup: with something on them they are the same, in order,
shifted by six spaces and trimmed, and no character is changed but white space. None of them
can be taken for the closing line. -/
theorem assembly_keeps_markup (v : Variant) (before : List Component) (c : Component)
    (after : List Component) :
    ∃ start literal rest, CutAtMarkup v before c after start literal rest ∧
      "    \x60;".toList ∉ literal ∧
      inked literal =
        (inked (lines c.markup.toList)).map (fun l => trimEnd (List.replicate 6 ' ' ++ l)) ∧
      literal.flatMap visible = visible c.markup.toList := by
  obtain ⟨start, rest, hcut⟩ := cutAtMarkup v before c after
  exact ⟨start, _, rest, hcut, Text.notMem_laid_indent (by decide) (by decide) _,
    Text.inked_laid_indent 6 c.markup, Text.visible_laid_indent 6 c.markup⟩

end DesignComponents.Payload
