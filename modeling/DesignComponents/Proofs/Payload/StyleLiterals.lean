import DesignComponents.Proofs.Payload.Sections
import DesignComponents.Proofs.Text.TemplateLiteral

/-! The literals of style sheets. Selectors and declarations are put into a template literal as the
host gives them, without the escaping that texts get. So the literal of a component ends where
it should, and holds its rules, exactly if nothing in them needs escaping. -/

namespace DesignComponents

namespace Text

open TemplateLiteral

/-- Line ends do not change what a text starts with. -/
theorem head?_of_lines_eq {cs l : List Char} {ls : List (List Char)} (h : lines cs = l :: ls)
    {c : Char} (hn : c ≠ '\n') (hr : c ≠ '\r') : cs.head? = some c ↔ l.head? = some c := by
  cases cs using lines_induct with
  | nil => cases h
  | feed cs _ =>
    obtain ⟨rfl, -⟩ := List.cons.inj h
    simpa using Ne.symm hn
  | ret cs _ =>
    obtain ⟨rfl, -⟩ := List.cons.inj h
    simpa using Ne.symm hr
  | char d cs hdn hdr _ =>
    rw [lines_cons hdn hdr] at h
    cases hcs : lines cs with
    | nil =>
      rw [hcs] at h
      obtain ⟨rfl, -⟩ := List.cons.inj h
      rfl
    | cons l' ls' =>
      rw [hcs] at h
      obtain ⟨rfl, -⟩ := List.cons.inj h
      rfl

theorem plain_cons_blank {c : Char} (h : isBlank c = true) {cs : List Char} :
    Plain (c :: cs) ↔ Plain cs := by
  have hb : c ≠ '\\' := fun he => absurd h (he ▸ by decide)
  have ha : c ≠ '\x60' := fun he => absurd h (he ▸ by decide)
  have hd : c ≠ '$' := fun he => absurd h (he ▸ by decide)
  rw [plain_cons]
  exact and_iff_right ⟨hb, ha, fun he => absurd he hd⟩

/-- A text is plain if its lines are. -/
theorem plain_iff_lines (cs : List Char) : Plain cs ↔ ∀ l ∈ lines cs, Plain l := by
  induction cs using lines_induct with
  | nil => simp [lines, plain_nil]
  | feed cs ih =>
    rw [plain_cons_blank (by decide), ih, lines, List.forall_mem_cons]
    exact (and_iff_right plain_nil).symm
  | ret cs ih =>
    rw [plain_cons_blank (by decide), plain_cons_blank (by decide), ih, lines, List.forall_mem_cons]
    exact (and_iff_right plain_nil).symm
  | char c cs hn hr ih =>
    rw [lines_cons hn hr, plain_cons, ih]
    cases hl : lines cs with
    | nil =>
      have hcs : cs = [] := by
        by_contra h
        exact lines_ne_nil h hl
      simp [consLine, plain_cons, plain_nil, hcs]
    | cons l ls =>
      have hhead := head?_of_lines_eq hl (c := '{') (by decide) (by decide)
      simp only [consLine, List.forall_mem_cons, plain_cons, ne_eq, hhead, and_assoc]

theorem plain_concat_blank {c : Char} (h : isBlank c = true) (l : List Char) :
    Plain (l ++ [c]) ↔ Plain l := by
  have hbrace : c ≠ '{' := fun he => absurd h (he ▸ by decide)
  rw [plain_append, plain_cons_blank h]
  exact and_iff_left ⟨plain_nil, fun _ he => hbrace (Option.some.inj he)⟩

theorem plain_trimEnd (l : List Char) : Plain (trimEnd l) ↔ Plain l := by
  induction l using List.reverseRecOn with
  | nil => rfl
  | append_singleton l c ih =>
    by_cases hc : isBlank c = true
    · rw [plain_concat_blank hc, ← ih, trimEnd_concat_blank hc]
    · rw [trimEnd_concat (by simpa using hc)]

theorem Keeps.plain_iff {ls kept : List (List Char)} (h : Keeps ls kept) :
    (∀ l ∈ ls, Plain l) ↔ ∀ k ∈ kept, Plain k := by
  induction h with
  | nil => rfl
  | line hl h ih => rw [List.forall_mem_cons, List.forall_mem_cons, ih, plain_trimEnd]
  | blank hl h ih =>
    rw [List.forall_mem_cons, List.forall_mem_cons, ih, ← plain_trimEnd, hl]
  | merge hl h ih =>
    rw [List.forall_mem_cons, ih, ← plain_trimEnd, hl]
    exact and_iff_right plain_nil

/-- Texts stay apart where the first does not end as a substitution starts, and the last does not
go on with one. -/
theorem plain_append_append {a b c : List Char} (hc : Plain c) (hlast : a.getLast? ≠ some '$')
    (hhead : c.head? ≠ some '{') : Plain (a ++ b ++ c) ↔ Plain a ∧ Plain b := by
  rw [plain_append, plain_append]
  constructor
  · exact fun h => ⟨h.1.1, h.1.2.1⟩
  · exact fun h => ⟨⟨h.1, h.2, fun he => absurd he hlast⟩, hc, fun _ => hhead⟩

end Text

namespace Payload

open Text (Keeps keeps_layOut layOut lines partLines)
open Text.TemplateLiteral

/-- Nothing in the rules of a component needs escaping. -/
def Component.PlainRules (c : Component) : Prop :=
  ∀ r ∈ c.rules, Plain r.selector.toList ∧
    ∀ d ∈ r.declarations.entries, Plain d.1.toList ∧ Plain d.2.toList

theorem plain_declarationLine (property value : String) :
    Plain ("      " ++ property ++ ": " ++ value ++ ";").toList ↔
      Plain property.toList ∧ Plain value.toList := by
  have hproperty : Plain ("      " ++ property ++ ": ").toList ↔ Plain property.toList := by
    rw [String.toList_append, String.toList_append,
      Text.plain_append_append (by decide) (by decide) (by decide)]
    exact and_iff_right (by decide)
  have hlast : ("      " ++ property ++ ": ").toList.getLast? = some ' ' :=
    Text.getLast?_toList_append _ (by decide)
  rw [String.toList_append, String.toList_append,
    Text.plain_append_append (by decide) (by rw [hlast]; decide) (by decide), hproperty]

theorem plain_ruleLines (r : Rule) :
    (∀ l ∈ ruleLines r, Plain l.toList) ↔ Plain r.selector.toList ∧
      ∀ d ∈ r.declarations.entries, Plain d.1.toList ∧ Plain d.2.toList := by
  have hselector : Plain ("    ." ++ r.selector ++ " \x7b").toList ↔ Plain r.selector.toList := by
    rw [String.toList_append, String.toList_append,
      Text.plain_append_append (by decide) (by decide) (by decide)]
    exact and_iff_right (by decide)
  have hend : Plain "    \x7d".toList := by decide
  simp only [ruleLines, List.forall_mem_append, List.forall_mem_singleton, List.forall_mem_map,
    hselector, plain_declarationLine]
  exact and_iff_left hend

theorem plain_sheetLines (c : Component) :
    (∀ l ∈ (sheetLines c).flatMap partLines, Plain l) ↔ c.PlainRules := by
  have hparts : ∀ l : String, (∀ x ∈ partLines l, Plain x) ↔ Plain l.toList := by
    intro l
    rw [partLines, ← Text.plain_iff_lines]
    exact Text.plain_concat_blank (by decide) l.toList
  simp only [sheetLines, List.forall_mem_flatMap, hparts, plain_ruleLines]
  rfl

/-- The source of a file, cut at the literal of one component's style sheet. What comes before the
sheet, the sheet and what comes behind it keep the lines that were put together for them. -/
structure CutAtSheet (v : Variant) (before : List Component) (c : Component)
    (after : List Component) (start sheet rest : String) : Prop where
  source_eq : source v (before ++ c :: after) =
    start ++ "  static styles = css\x60\n" ++ sheet ++ "  \x60;\n" ++ rest
  start_keeps : Keeps ((header v (before ++ c :: after) ++ before.flatMap (componentLines v) ++
    openingLines v c).flatMap partLines) (lines start.toList)
  sheet_keeps : Keeps ((sheetLines c).flatMap partLines) (lines sheet.toList)
  rest_keeps : Keeps ((closingLines v c ++ after.flatMap (componentLines v)).flatMap partLines)
    (lines rest.toList)

theorem exists_cutAtSheet (v : Variant) (before : List Component) (c : Component)
    (after : List Component) :
    ∃ start sheet rest, CutAtSheet v before c after start sheet rest := by
  have hopen : Text.Solid "  static styles = css\x60" := by decide
  have hclose : Text.Solid "  \x60;" := by decide
  refine ⟨layOut _, layOut _, layOut _, ?_, keeps_layOut _, keeps_layOut _, keeps_layOut _⟩
  have hparts : sourceLines v (before ++ c :: after) =
      (header v (before ++ c :: after) ++ before.flatMap (componentLines v) ++ openingLines v c) ++
        "  static styles = css\x60" :: (sheetLines c ++ "  \x60;" ::
          (closingLines v c ++ after.flatMap (componentLines v))) := by
    rw [sourceLines_eq, List.flatMap_append, List.flatMap_cons, componentLines_eq]
    simp [stylesLines, sheetLines]
  have hbreaks : "  static styles = css\x60\n" = "  static styles = css\x60" ++ "\n" ∧
      "  \x60;\n" = "  \x60;" ++ "\n" := by decide
  rw [source_eq_layOut, hparts, Text.layOut_cut _ hopen, Text.layOut_cut _ hclose, hbreaks.1,
    hbreaks.2]
  simp only [String.append_assoc]

/-- The literal of a component's style sheet is closed: a reader finds no substitution in it, comes
to its end at the template's own accent, and has found the lines of the sheet. -/
def SheetCloses (v : Variant) (before : List Component) (c : Component) (after : List Component) :
    Prop :=
  ∃ start sheet rest, CutAtSheet v before c after start sheet rest ∧
    read ("\n" ++ sheet ++ "  \x60;\n" ++ rest).toList =
      some (chars ("\n" ++ sheet ++ "  ").toList, (";\n" ++ rest).toList)

/-- A cut at a sheet is closed exactly if nothing in the sheet needs escaping. -/
theorem CutAtSheet.read_eq_iff {v : Variant} {before after : List Component} {c : Component}
    {start sheet rest : String} (h : CutAtSheet v before c after start sheet rest) :
    read ("\n" ++ sheet ++ "  \x60;\n" ++ rest).toList =
      some (chars ("\n" ++ sheet ++ "  ").toList, (";\n" ++ rest).toList) ↔ c.PlainRules := by
  have hsource : ("\n" ++ sheet ++ "  \x60;\n" ++ rest).toList =
      ("\n" ++ sheet ++ "  ").toList ++ '\x60' :: (";\n" ++ rest).toList := by
    simp
  have hsheet : Plain ("\n" ++ sheet ++ "  ").toList ↔ Plain sheet.toList := by
    rw [String.toList_append, String.toList_append]
    rw [Text.plain_append_append (by decide) (by decide) (by decide)]
    exact and_iff_right (by decide)
  rw [hsource, read_eq_chars_iff, hsheet, Text.plain_iff_lines, ← h.sheet_keeps.plain_iff,
    plain_sheetLines]

theorem sheetCloses_iff (v : Variant) (before : List Component) (c : Component)
    (after : List Component) : SheetCloses v before c after ↔ c.PlainRules := by
  constructor
  · rintro ⟨start, sheet, rest, hcut, hread⟩
    exact hcut.read_eq_iff.mp hread
  · intro hplain
    obtain ⟨start, sheet, rest, hcut⟩ := exists_cutAtSheet v before c after
    exact ⟨start, sheet, rest, hcut, hcut.read_eq_iff.mpr hplain⟩

/-- In every file and both variants, all style sheets are closed exactly if no selector, property or
value of the components needs escaping. -/
theorem sheets_close_iff (v : Variant) (cs : List Component) :
    (∀ before c after, cs = before ++ c :: after → SheetCloses v before c after) ↔
      ∀ c ∈ cs, c.PlainRules := by
  constructor
  · intro h c hc
    obtain ⟨before, after, hcs⟩ := List.append_of_mem hc
    exact (sheetCloses_iff v before c after).mp (h before c after hcs)
  · rintro h before c after rfl
    exact (sheetCloses_iff v before c after).mpr (h c (by simp))

/-- A card that shows a grave accent behind it. -/
def accentCard : Component where
  tag := "card-element"
  className := "CardElement"
  rules := [⟨"card-element", .ofList [("content", "\"\x60\"")]⟩]
  properties := []
  handlers := []
  markup := "<div class=\"card-element\"></div>"

/-- The accent ends the literal. -/
theorem accentCard_not_sheetCloses : ¬ SheetCloses .typescript [] accentCard [] := by
  rw [sheetCloses_iff]
  intro h
  have hvalue := (h _ List.mem_cons_self).2 ("content", "\"\x60\"") (by decide)
  exact absurd hvalue.2 (by decide)

end Payload

end DesignComponents
