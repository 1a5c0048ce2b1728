import DesignComponents.Proofs.Text.Parts
import DesignComponents.Proofs.Text.Spacing

/-! Indented texts. Indentation shifts the lines that have something on them. In a text that is laid
out they are then still the lines with something on them, in order, and nothing but white space
has been added or dropped. -/

namespace DesignComponents.Text

/-! ### Lines up to the white space at their ends -/

/-- A line in front of a carriage return and a line feed is read without both. -/
theorem lines_return {l : List Char} (hn : '\n' ∉ l) (rest : List Char) :
    lines (l ++ '\r' :: '\n' :: rest) = l :: lines rest := by
  induction l with
  | nil => rfl
  | cons c l ih =>
    rw [List.mem_cons, not_or] at hn
    have hc : c = '\r' → (l ++ '\r' :: '\n' :: rest).head? ≠ some '\n' := by
      intro _ hhead
      cases l with
      | nil => exact absurd (Option.some.inj hhead) (by decide)
      | cons d l => exact hn.2 (by rw [Option.some.inj hhead]; exact List.mem_cons_self)
    rw [List.cons_append, lines_cons (Ne.symm hn.1) hc, ih hn.2]
    rfl

/-- A line in front of a line break is read as it is, apart from white space at its end. -/
theorem exists_lines_eq_cons {l : List Char} (hn : '\n' ∉ l) (rest : List Char) :
    ∃ l', lines (l ++ '\n' :: rest) = l' :: lines rest ∧ trimEnd l' = trimEnd l := by
  by_cases hr : l.getLast? = some '\r'
  · obtain ⟨l', rfl⟩ := List.getLast?_eq_some_iff.mp hr
    have hn' : '\n' ∉ l' := fun hm => hn (List.mem_append_left _ hm)
    refine ⟨l', ?_, (trimEnd_concat_blank (by decide) l').symm⟩
    rw [List.append_assoc, List.singleton_append, lines_return hn']
  · exact ⟨l, lines_line hn hr rest, rfl⟩

theorem map_trimEnd_lines_unlines {ls : List (List Char)} (h : ∀ l ∈ ls, '\n' ∉ l) :
    (lines (unlines ls)).map trimEnd = ls.map trimEnd := by
  induction ls with
  | nil => rfl
  | cons l ls ih =>
    rw [List.forall_mem_cons] at h
    obtain ⟨l', hlines, hl'⟩ := exists_lines_eq_cons h.1 (unlines ls)
    have hcons : unlines (l :: ls) = l ++ '\n' :: unlines ls := by simp [unlines]
    rw [hcons, hlines, List.map_cons, List.map_cons, hl', ih h.2]

theorem map_trimEnd_inked (ls : List (List Char)) :
    (inked ls).map trimEnd = inked (ls.map trimEnd) := by
  have hcomp : (fun l => !isBlankLine l) ∘ trimEnd = fun l => !isBlankLine l :=
    funext fun l => congrArg not (isBlankLine_trimEnd l)
  rw [inked, inked, List.filter_map, hcomp]

/-- What is kept has the lines with something on them. -/
theorem Keeps.inked_eq {ls kept : List (List Char)} (h : Keeps ls kept) :
    inked kept = (inked ls).map trimEnd := by
  rw [map_trimEnd_inked]
  induction h with
  | nil => rfl
  | @line l _ _ hl _ ih =>
    have hink : isBlankLine (trimEnd l) = false := by
      rw [isBlankLine_trimEnd, isBlankLine_eq_false_iff]
      exact hl
    rw [List.map_cons, inked_of_ink hink, inked_of_ink hink, ih]
  | blank hl _ ih => rw [List.map_cons, hl, inked_of_blank rfl, inked_of_blank rfl, ih]
  | merge hl _ ih => rw [List.map_cons, hl, ih, inked_of_blank rfl]

/-! ### Indentation -/

/-- A line behind some spaces, unless nothing is on it. -/
def shifted (width : Nat) (l : List Char) : List Char :=
  if isBlankLine l then l else List.replicate width ' ' ++ l

theorem shifted_of_ink {l : List Char} (h : isBlankLine l = false) (width : Nat) :
    shifted width l = List.replicate width ' ' ++ l := if_neg (by simp [h])

theorem toList_indent (width : Nat) (text : String) :
    (indent width text).toList = ['\n'].intercalate ((lines text.toList).map (shifted width)) := by
  rw [indent, String.toList_intercalate, List.map_map]
  have hshift : ∀ l, (if isBlankLine l then String.ofList l
      else String.ofList (List.replicate width ' ' ++ l)).toList = shifted width l := by
    intro l
    rw [shifted, apply_ite String.toList, String.toList_ofList, String.toList_ofList]
  exact congrArg (['\n'].intercalate ·) (List.map_congr_left fun l _ => hshift l)

theorem intercalate_append_break {ls : List (List Char)} (h : ls ≠ []) :
    ['\n'].intercalate ls ++ ['\n'] = unlines ls := by
  induction ls with
  | nil => exact absurd rfl h
  | cons l ls ih =>
    by_cases hls : ls = []
    · subst hls
      simp [unlines]
    · rw [List.intercalate_cons_of_ne_nil hls, List.append_assoc, ih hls]
      simp [unlines]

theorem break_notMem_shifted {width : Nat} {l : List Char} (h : '\n' ∉ l) :
    '\n' ∉ shifted width l := by
  rw [shifted]
  split_ifs
  · exact h
  · simpa using h

/-- An indented text has the shifted lines, apart from white space at their ends. -/
theorem map_trimEnd_partLines_indent (width : Nat) {text : String} (h : text ≠ "") :
    (partLines (indent width text)).map trimEnd =
      ((lines text.toList).map (shifted width)).map trimEnd := by
  have hne : (lines text.toList).map (shifted width) ≠ [] := by
    simpa using lines_ne_nil (by simpa using h)
  rw [partLines, toList_indent, intercalate_append_break hne, map_trimEnd_lines_unlines]
  exact List.forall_mem_map.mpr fun l hl => break_notMem_shifted (break_notMem_of_mem_lines hl)

theorem isBlankLine_shifted (width : Nat) (l : List Char) :
    isBlankLine (shifted width l) = isBlankLine l := by
  rw [shifted]
  split_ifs
  · rfl
  · have hspaces : (List.replicate width ' ').all isBlank = true := by
      rw [List.all_eq_true]
      intro c hc
      rw [List.eq_of_mem_replicate hc]
      decide
    rw [isBlankLine, List.all_append, hspaces, Bool.true_and]
    rfl

theorem inked_map_shifted (width : Nat) (ls : List (List Char)) :
    inked (ls.map (shifted width)) = (inked ls).map (List.replicate width ' ' ++ ·) := by
  induction ls with
  | nil => rfl
  | cons l ls ih =>
    have hl := isBlankLine_shifted width l
    cases h : isBlankLine l with
    | true => rw [List.map_cons, inked_of_blank (hl.trans h), inked_of_blank h, ih]
    | false =>
      rw [List.map_cons, inked_of_ink (hl.trans h), inked_of_ink h, ih, shifted_of_ink h,
        List.map_cons]

/-! ### Indented parts of a text -/

theorem inked_laid_indent (width : Nat) (text : String) :
    inked (laid [indent width text]) =
      (inked (lines text.toList)).map fun l => trimEnd (List.replicate width ' ' ++ l) := by
  rw [(keeps_laid _).inked_eq, List.flatMap_singleton]
  by_cases h : text = ""
  · subst h
    rfl
  · rw [map_trimEnd_inked, map_trimEnd_partLines_indent width h, ← map_trimEnd_inked,
      inked_map_shifted, List.map_map]
    rfl

theorem visible_shifted (width : Nat) (l : List Char) :
    visible (trimEnd (List.replicate width ' ' ++ l)) = visible l := by
  have hspaces : visible (List.replicate width ' ') = [] := by
    refine List.filter_eq_nil_iff.mpr fun c hc => ?_
    rw [List.eq_of_mem_replicate hc]
    decide
  rw [visible_trimEnd, visible, List.filter_append]
  exact congrArg (· ++ visible l) hspaces

theorem visible_laid_indent (width : Nat) (text : String) :
    (laid [indent width text]).flatMap visible = visible text.toList := by
  rw [← flatMap_visible_inked, inked_laid_indent, List.flatMap_map, visible_eq_flatMap_lines,
    ← flatMap_visible_inked (lines _)]
  exact List.flatMap_congr fun l _ => visible_shifted width l

/-- A line with something on it that does not start with the spaces is none of the text. -/
theorem notMem_laid_indent {width : Nat} {k : List Char} (hk : isBlankLine k = false)
    (h : ¬ List.replicate width ' ' <+: k) (text : String) : k ∉ laid [indent width text] := by
  intro hm
  have hmem : k ∈ inked (laid [indent width text]) := List.mem_filter.mpr ⟨hm, by simp [hk]⟩
  rw [inked_laid_indent] at hmem
  obtain ⟨l, hl, rfl⟩ := List.mem_map.mp hmem
  have hink : isBlankLine l = false := by simpa using (List.mem_filter.mp hl).2
  rw [trimEnd_append (isBlankLine_eq_false_iff.mp hink)] at h
  exact h (List.prefix_append _ _)

end DesignComponents.Text
