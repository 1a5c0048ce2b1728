import DesignComponents.Proofs.Text.Tidiness

/-! Texts in parts. A text that is put together from parts is laid out part by part: the layout
starts anew behind a line with something on it, so that it may be cut there, and it leaves
solid lines and single blank lines as they are. -/

namespace DesignComponents.Text

/-! ### Parts -/

/-- The lines of a part of a text; there may be line breaks in it. -/
def partLines (part : String) : List (List Char) := lines (part.toList ++ ['\n'])

theorem lines_join (parts : List String) :
    lines (String.join (parts.map (· ++ "\n"))).toList = parts.flatMap partLines := by
  induction parts with
  | nil => rfl
  | cons part parts ih =>
    rw [List.map_cons, String.join_cons, String.toList_append, String.toList_append,
      List.flatMap_cons, ← ih, partLines, ← lines_append_break, List.append_assoc]
    rfl

/-- A part that is one line with something on it and without white space at its end. -/
structure Solid (part : String) : Prop where
  unbroken : '\n' ∉ part.toList
  ne_nil : part.toList ≠ []
  trimmed : trimEnd part.toList = part.toList

instance (part : String) : Decidable (Solid part) :=
  decidable_of_iff
    ('\n' ∉ part.toList ∧ part.toList ≠ [] ∧ trimEnd part.toList = part.toList)
    ⟨fun h => ⟨h.1, h.2.1, h.2.2⟩, fun h => ⟨h.unbroken, h.ne_nil, h.trimmed⟩⟩

namespace Solid

variable {part : String}

theorem partLines_eq (h : Solid part) : partLines part = [part.toList] := by
  refine lines_line h.unbroken ?_ []
  rw [← h.trimmed]
  exact getLast?_trimEnd_ne (by decide) _

theorem trimEnd_ne_nil (h : Solid part) : trimEnd part.toList ≠ [] := by
  rw [h.trimmed]
  exact h.ne_nil

/-- A solid line stays solid when something is put in front of it. -/
theorem append_left (h : Solid part) {front : String} (hn : '\n' ∉ front.toList) :
    Solid (front ++ part) := by
  refine ⟨?_, ?_, ?_⟩
  · rw [String.toList_append, List.mem_append]
    exact fun hm => hm.elim hn h.unbroken
  · rw [String.toList_append]
    exact List.append_ne_nil_of_right_ne_nil _ h.ne_nil
  · rw [String.toList_append, trimEnd_append h.trimEnd_ne_nil, h.trimmed]

end Solid

/-- A solid line is kept as it is. -/
theorem Keeps.mem {ls kept : List (List Char)} (h : Keeps ls kept) {part : String}
    (hp : Solid part) (hm : part.toList ∈ ls) : part.toList ∈ kept := by
  induction h with
  | nil => exact hm
  | line hl h ih =>
    rcases List.mem_cons.mp hm with rfl | hm
    · rw [hp.trimmed]
      exact List.mem_cons_self
    · exact List.mem_cons_of_mem _ (ih hm)
  | blank hl h ih =>
    rcases List.mem_cons.mp hm with rfl | hm
    · exact absurd hl hp.trimEnd_ne_nil
    · exact List.mem_cons_of_mem _ (ih hm)
  | merge hl h ih =>
    rcases List.mem_cons.mp hm with rfl | hm
    · exact absurd hl hp.trimEnd_ne_nil
    · exact ih hm

/-! ### The layout of parts -/

/-- The clean layout of parts that stand inside of a text. -/
def layOut (parts : List String) : String :=
  String.ofList (unlines (squeeze false (parts.flatMap partLines)))

/-- The lines of that layout. -/
def laid (parts : List String) : List (List Char) := squeeze false (parts.flatMap partLines)

theorem break_notMem_of_mem_partLines {parts : List String} {l : List Char}
    (h : l ∈ parts.flatMap partLines) : '\n' ∉ l := by
  obtain ⟨part, -, hl⟩ := List.mem_flatMap.mp h
  exact break_notMem_of_mem_lines hl

theorem toList_layOut (parts : List String) : (layOut parts).toList = unlines (laid parts) :=
  String.toList_ofList

theorem lines_layOut (parts : List String) : lines (layOut parts).toList = laid parts := by
  rw [toList_layOut]
  exact lines_unlines_squeeze fun l hl => break_notMem_of_mem_partLines hl

theorem keeps_laid (parts : List String) : Keeps (parts.flatMap partLines) (laid parts) :=
  keeps_squeeze _

theorem keeps_layOut (parts : List String) :
    Keeps (parts.flatMap partLines) (lines (layOut parts).toList) := by
  rw [lines_layOut]
  exact keeps_laid parts

/-- A solid line cuts the layout into two parts that are laid out alone. -/
theorem laid_cut (above : List String) {part : String} (h : Solid part) (below : List String) :
    laid (above ++ part :: below) = laid above ++ part.toList :: laid below := by
  rw [laid, List.flatMap_append, List.flatMap_cons, h.partLines_eq, List.singleton_append,
    squeeze_append h.trimEnd_ne_nil, h.trimmed]
  rfl

theorem layOut_cut (above : List String) {part : String} (h : Solid part) (below : List String) :
    layOut (above ++ part :: below) = layOut above ++ part ++ "\n" ++ layOut below := by
  rw [← String.toList_inj, toList_layOut, laid_cut above h]
  simp [toList_layOut, unlines]

/-- The last part ends in a character that is not blank. -/
def EndsInInk (parts : List String) : Prop :=
  ∃ above part cs c, parts = above ++ [part] ∧ part.toList = cs ++ [c] ∧ isBlank c = false

theorem endsInInk_concat (above : List String) {part : String} {c : Char}
    (h : part.toList.getLast? = some c) (hc : isBlank c = false) : EndsInInk (above ++ [part]) := by
  obtain ⟨cs, hcs⟩ := List.getLast?_eq_some_iff.mp h
  exact ⟨above, part, cs, c, rfl, hcs, hc⟩

theorem getLast?_toList_append (front : String) {back : String} {c : Char}
    (h : back.toList.getLast? = some c) : (front ++ back).toList.getLast? = some c := by
  rw [String.toList_append, List.getLast?_append, h, Option.some_or]

theorem EndsInInk.append_left {parts : List String} (h : EndsInInk parts) (above : List String) :
    EndsInInk (above ++ parts) := by
  obtain ⟨above', part, cs, c, rfl, hc⟩ := h
  exact ⟨above ++ above', part, cs, c, by rw [List.append_assoc], hc⟩

theorem EndsInInk.exists_lines_concat {parts : List String} (h : EndsInInk parts) :
    ∃ ls l, parts.flatMap partLines = ls ++ [l] ∧ trimEnd l ≠ [] := by
  obtain ⟨above, part, cs, c, rfl, hpart, hc⟩ := h
  have hn : c ≠ '\n' := by
    rintro rfl
    exact absurd hc (by decide)
  have hr : c ≠ '\r' := by
    rintro rfl
    exact absurd hc (by decide)
  obtain ⟨ls, l, hlines⟩ := Text.exists_lines_concat hn hr cs
  refine ⟨above.flatMap partLines ++ ls, l ++ [c], ?_, ?_⟩
  · rw [List.flatMap_append, List.flatMap_singleton, partLines, hpart, List.append_assoc,
      List.singleton_append, hlines, List.append_assoc]
  · rw [trimEnd_concat hc]
    simp

/-- The layout starts anew behind parts that end with something on the line. -/
theorem laid_append {above : List String} (h : EndsInInk above) (below : List String) :
    laid (above ++ below) = laid above ++ laid below := by
  obtain ⟨ls, l, hlines, hl⟩ := h.exists_lines_concat
  have hnil : squeeze false [l] = [trimEnd l] := squeeze_cons_of_ne_nil hl false []
  rw [laid, List.flatMap_append, hlines, List.append_assoc, List.singleton_append,
    squeeze_append hl, laid, hlines, squeeze_append hl, List.append_assoc]
  rfl

theorem laid_flatMap {α : Type} {f : α → List String} (h : ∀ a, EndsInInk (f a)) (as : List α) :
    laid (as.flatMap f) = as.flatMap fun a => laid (f a) := by
  induction as with
  | nil => rfl
  | cons a as ih => rw [List.flatMap_cons, laid_append (h a), ih, List.flatMap_cons]

/-- The clean layout of parts that start and end with something on the line. -/
theorem tidy_join {parts : List String} (h : Framed (parts.flatMap partLines)) :
    tidy (String.join (parts.map (· ++ "\n"))) = layOut parts := by
  obtain ⟨l, ls', hls, hl⟩ := h.first
  have hsqueeze := squeeze_cons_of_ne_nil hl false ls'
  rw [tidy, lines_join, h.squeeze_true, h.dropBlankEnd_squeeze, layOut, hls, hsqueeze]

/-! ### Parts that stay as they are -/

/-- Solid parts with at most one blank one in front of each. -/
inductive Settled : List String → Prop
  | nil : Settled []
  | line {part : String} {parts : List String} (h : Solid part) (hs : Settled parts) :
      Settled (part :: parts)
  | blank {part : String} {parts : List String} (h : Solid part) (hs : Settled parts) :
      Settled ("" :: part :: parts)

namespace Settled

variable {parts parts' : List String}

theorem append (h : Settled parts) (h' : Settled parts') : Settled (parts ++ parts') := by
  induction h with
  | nil => exact h'
  | line h _ ih => exact .line h ih
  | blank h _ ih => exact .blank h ih

theorem flatMap {α : Type} {f : α → List String} {as : List α} (h : ∀ a ∈ as, Settled (f a)) :
    Settled (as.flatMap f) := by
  induction as with
  | nil => exact .nil
  | cons a as ih =>
    rw [List.forall_mem_cons] at h
    exact h.1.append (ih h.2)

theorem map {α : Type} {f : α → String} {as : List α} (h : ∀ a ∈ as, Solid (f a)) :
    Settled (as.map f) := by
  rw [List.map_eq_flatMap]
  exact flatMap fun a ha => .line (h a ha) .nil

theorem break_notMem (h : Settled parts) : ∀ part ∈ parts, '\n' ∉ part.toList := by
  induction h with
  | nil => exact List.forall_mem_nil _
  | line h _ ih => exact List.forall_mem_cons.mpr ⟨h.unbroken, ih⟩
  | blank h _ ih =>
    exact List.forall_mem_cons.mpr ⟨by decide, List.forall_mem_cons.mpr ⟨h.unbroken, ih⟩⟩

theorem laid_append (h : Settled parts) (below : List String) :
    laid (parts ++ below) = parts.map String.toList ++ laid below := by
  induction h with
  | nil => rfl
  | @line part parts h _ ih =>
    rw [List.cons_append, ← List.nil_append (part :: _), laid_cut _ h, ih]
    rfl
  | @blank part parts h _ ih =>
    rw [List.cons_append, List.cons_append, ← List.singleton_append, laid_cut _ h, ih]
    rfl

theorem laid_eq (h : Settled parts) : laid parts = parts.map String.toList := by
  rw [← List.append_nil parts, h.laid_append]
  simp [laid, squeeze]

end Settled

end DesignComponents.Text
