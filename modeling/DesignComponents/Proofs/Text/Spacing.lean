import DesignComponents.Proofs.Text.Tidiness

/-! The spacing of a text: its lines with something on them, each with the number of blank lines in
front of it. The clean layout is a function of the spacing. It trims the lines and leaves at
most one blank line between two of them, so that laying out a text once more changes nothing. -/

namespace DesignComponents.Text

/-! ### Lines with something on them -/

theorem isBlankLine_iff {l : List Char} : isBlankLine l = true ↔ trimEnd l = [] := by
  rw [isBlankLine, List.all_eq_true, trimEnd_eq_rdropWhile, List.rdropWhile_eq_nil_iff]

theorem isBlankLine_eq_false_iff {l : List Char} : isBlankLine l = false ↔ trimEnd l ≠ [] := by
  rw [ne_eq, ← isBlankLine_iff, Bool.not_eq_true]

theorem isBlankLine_trimEnd (l : List Char) : isBlankLine (trimEnd l) = isBlankLine l := by
  rw [Bool.eq_iff_iff, isBlankLine_iff, isBlankLine_iff, trimEnd_trimEnd]

/-- Lines with something on them. -/
def inked (ls : List (List Char)) : List (List Char) := ls.filter fun l => !isBlankLine l

/-- Lines with something on them, each with the number of blank lines that were read before it, the
given ones among them. -/
def spacing : Nat → List (List Char) → List (Nat × List Char)
  | _, [] => []
  | n, l :: ls => if isBlankLine l then spacing (n + 1) ls else (n, l) :: spacing 0 ls

/-- The numbers of blank lines between neighbours among the lines with something on them. -/
def gaps (ls : List (List Char)) : List Nat := ((spacing 0 ls).map Prod.fst).tail

theorem inked_of_blank {l : List Char} (h : isBlankLine l = true) (ls : List (List Char)) :
    inked (l :: ls) = inked ls := List.filter_cons_of_neg (by simp [h])

theorem inked_of_ink {l : List Char} (h : isBlankLine l = false) (ls : List (List Char)) :
    inked (l :: ls) = l :: inked ls := List.filter_cons_of_pos (by simp [h])

theorem spacing_of_blank {l : List Char} (h : isBlankLine l = true) (n : Nat)
    (ls : List (List Char)) : spacing n (l :: ls) = spacing (n + 1) ls := by
  rw [spacing, if_pos h]

theorem spacing_of_ink {l : List Char} (h : isBlankLine l = false) (n : Nat)
    (ls : List (List Char)) : spacing n (l :: ls) = (n, l) :: spacing 0 ls := by
  rw [spacing, if_neg (by simp [h])]

theorem map_snd_spacing (n : Nat) (ls : List (List Char)) :
    (spacing n ls).map Prod.snd = inked ls := by
  induction ls generalizing n with
  | nil => rfl
  | cons l ls ih =>
    cases h : isBlankLine l with
    | true => rw [spacing_of_blank h, ih, inked_of_blank h]
    | false => rw [spacing_of_ink h, List.map_cons, ih, inked_of_ink h]

/-! ### Lines from a spacing -/

/-- Every line behind its blank lines. -/
def spread (es : List (Nat × List Char)) : List (List Char) :=
  es.flatMap fun e => List.replicate e.1 [] ++ [e.2]

theorem spread_cons (e : Nat × List Char) (es : List (Nat × List Char)) :
    spread (e :: es) = List.replicate e.1 [] ++ e.2 :: spread es := by
  rw [spread, List.flatMap_cons, List.append_assoc]
  rfl

theorem spacing_replicate (n k : Nat) (ls : List (List Char)) :
    spacing n (List.replicate k [] ++ ls) = spacing (n + k) ls := by
  induction k generalizing n with
  | zero => rfl
  | succ k ih =>
    rw [List.replicate_succ, List.cons_append, spacing_of_blank rfl, ih, Nat.add_right_comm]
    rfl

theorem spacing_spread {es : List (Nat × List Char)} (h : ∀ e ∈ es, isBlankLine e.2 = false) :
    spacing 0 (spread es) = es := by
  induction es with
  | nil => rfl
  | cons e es ih =>
    rw [List.forall_mem_cons] at h
    rw [spread_cons, spacing_replicate, spacing_of_ink h.1, ih h.2, Nat.zero_add]

/-! ### The layout of a spacing -/

/-- A line without white space at its end, behind at most one blank line. -/
def tighten (e : Nat × List Char) : Nat × List Char := (min e.1 1, trimEnd e.2)

/-- All lines tightened, and no blank line at the start. -/
def snug : List (Nat × List Char) → List (Nat × List Char)
  | [] => []
  | e :: es => (0, trimEnd e.2) :: es.map tighten

theorem tighten_tighten (e : Nat × List Char) : tighten (tighten e) = tighten e := by
  rw [tighten, tighten, trimEnd_trimEnd, Nat.min_assoc, Nat.min_self]

theorem snug_snug (es : List (Nat × List Char)) : snug (snug es) = snug es := by
  cases es with
  | nil => rfl
  | cons e es =>
    rw [snug, snug, trimEnd_trimEnd, List.map_map]
    exact congrArg _ (List.map_congr_left fun e _ => tighten_tighten e)

theorem map_snd_snug (es : List (Nat × List Char)) :
    (snug es).map Prod.snd = (es.map Prod.snd).map trimEnd := by
  cases es with
  | nil => rfl
  | cons e es =>
    rw [snug, List.map_cons, List.map_cons, List.map_cons, List.map_map, List.map_map]
    rfl

theorem tail_map_fst_snug (es : List (Nat × List Char)) :
    ((snug es).map Prod.fst).tail = ((es.map Prod.fst).tail).map (min · 1) := by
  cases es with
  | nil => rfl
  | cons e es =>
    rw [snug, List.map_cons, List.tail_cons, List.map_cons, List.tail_cons, List.map_map,
      List.map_map]
    rfl

theorem dropBlankEnd_cons (l : List Char) (ls : List (List Char)) :
    dropBlankEnd (l :: ls) =
      if dropBlankEnd ls = [] ∧ l = [] then [] else l :: dropBlankEnd ls := by
  rw [dropBlankEnd, List.reverse_cons, List.dropWhile_append, dropBlankEnd]
  cases hls : ls.reverse.dropWhile List.isEmpty with
  | nil => cases l <;> simp
  | cons k ks => simp

/-- What is left of squeezed lines, in front of which no line or a blank one stays. -/
theorem dropBlankEnd_squeeze_eq (ls : List (List Char)) :
    dropBlankEnd (squeeze false ls) = spread ((spacing 0 ls).map tighten) ∧
      ∀ n, dropBlankEnd ([] :: squeeze true ls) = spread ((spacing (n + 1) ls).map tighten) := by
  -- a blank line leads from the first equation to the second one, a line with ink back
  induction ls with
  | nil => exact ⟨rfl, fun _ => rfl⟩
  | cons l ls ih =>
    obtain ⟨hink, hblank⟩ := ih
    cases h : isBlankLine l with
    | true =>
      have hsqueeze := squeeze_cons_of_eq_nil (isBlankLine_iff.mp h) ls
      rw [hsqueeze.1, hsqueeze.2, spacing_of_blank h]
      refine ⟨hblank 0, fun n => ?_⟩
      rw [spacing_of_blank h]
      exact hblank (n + 1)
    | false =>
      have hl := isBlankLine_eq_false_iff.mp h
      have hdrop : dropBlankEnd (trimEnd l :: squeeze false ls) =
          trimEnd l :: spread ((spacing 0 ls).map tighten) := by
        rw [dropBlankEnd_cons, if_neg fun hn => hl hn.2, hink]
      rw [squeeze_cons_of_ne_nil hl, squeeze_cons_of_ne_nil hl, spacing_of_ink h, List.map_cons,
        spread_cons]
      refine ⟨hdrop, fun n => ?_⟩
      rw [dropBlankEnd_cons, hdrop, if_neg (by simp), spacing_of_ink h, List.map_cons, spread_cons]
      simp [tighten]

/-- Squeezed lines are the snug spacing, whatever the number of blank lines at the start. -/
theorem dropBlankEnd_squeeze_true (n : Nat) (ls : List (List Char)) :
    dropBlankEnd (squeeze true ls) = spread (snug (spacing n ls)) := by
  induction ls generalizing n with
  | nil => rfl
  | cons l ls ih =>
    cases h : isBlankLine l with
    | true =>
      rw [(squeeze_cons_of_eq_nil (isBlankLine_iff.mp h) ls).2, spacing_of_blank h, ih]
    | false =>
      have hl := isBlankLine_eq_false_iff.mp h
      rw [squeeze_cons_of_ne_nil hl, spacing_of_ink h, snug, spread_cons, dropBlankEnd_cons,
        if_neg fun hn => hl hn.2, (dropBlankEnd_squeeze_eq ls).1]
      rfl

/-! ### The laid out text -/

/-- A line of a laid out text with the number of blank lines in front of it. -/
structure Tight (e : Nat × List Char) : Prop where
  gap : e.1 ≤ 1
  ink : isBlankLine e.2 = false
  trimmed : trimEnd e.2 = e.2
  unbroken : '\n' ∉ e.2

namespace Tight

variable {e : Nat × List Char}

theorem getLast?_ne (h : Tight e) {c : Char} (hc : isBlank c = true) :
    e.2.getLast? ≠ some c := by
  rw [← h.trimmed]
  exact getLast?_trimEnd_ne hc e.2

theorem ne_nil (h : Tight e) : e.2 ≠ [] := by
  intro hnil
  have hink := h.ink
  rw [hnil] at hink
  cases hink

end Tight

theorem tight_trimEnd {cs l : List Char} (h : l ∈ inked (lines cs)) {k : Nat} (hk : k ≤ 1) :
    Tight (k, trimEnd l) := by
  obtain ⟨hm, hink⟩ : l ∈ lines cs ∧ isBlankLine l = false := by simpa [inked] using h
  refine ⟨hk, ?_, trimEnd_trimEnd l, fun hn => ?_⟩
  · rw [isBlankLine_trimEnd, hink]
  · exact break_notMem_of_mem_lines hm (trimEnd_subset l hn)

theorem mem_snug {es : List (Nat × List Char)} {e : Nat × List Char} (h : e ∈ snug es) :
    ∃ l ∈ es.map Prod.snd, e.1 ≤ 1 ∧ e.2 = trimEnd l := by
  cases es with
  | nil => cases h
  | cons e' es =>
    rcases List.mem_cons.mp h with rfl | h
    · exact ⟨e'.2, List.mem_cons_self, Nat.zero_le 1, rfl⟩
    · obtain ⟨e'', hm, rfl⟩ := List.mem_map.mp h
      exact ⟨e''.2, List.mem_cons_of_mem _ (List.mem_map_of_mem hm), Nat.min_le_right _ _, rfl⟩

theorem tight_of_mem_snug {n : Nat} {cs : List Char} {e : Nat × List Char}
    (h : e ∈ snug (spacing n (lines cs))) : Tight e := by
  obtain ⟨l, hl, hgap, htext⟩ := mem_snug h
  rw [map_snd_spacing] at hl
  have htight := tight_trimEnd hl hgap
  rwa [← htext] at htight

theorem forall_mem_spread {es : List (Nat × List Char)} {P : List Char → Prop} (hnil : P [])
    (h : ∀ e ∈ es, P e.2) : ∀ l ∈ spread es, P l := by
  intro l hl
  obtain ⟨e, he, hl⟩ := List.mem_flatMap.mp hl
  rcases List.mem_append.mp hl with hl | hl
  · rw [List.eq_of_mem_replicate hl]
    exact hnil
  · rw [List.mem_singleton.mp hl]
    exact h e he

theorem lines_unlines_spread {es : List (Nat × List Char)} (h : ∀ e ∈ es, Tight e) :
    lines (unlines (spread es)) = spread es :=
  lines_unlines (forall_mem_spread List.not_mem_nil fun e he => (h e he).unbroken)
    (forall_mem_spread (by simp) fun e he => (h e he).getLast?_ne (by decide))

/-- Of two neighbours among the lines at least one has something on it. -/
theorem isChain_spread {es : List (Nat × List Char)} (h : ∀ e ∈ es, Tight e) {l : List Char}
    (hl : isBlankLine l = false) :
    (l :: spread es).IsChain fun a b => isBlankLine a = false ∨ isBlankLine b = false := by
  induction es generalizing l with
  | nil => exact .singleton l
  | cons e es ih =>
    rw [List.forall_mem_cons] at h
    have hnext := ih h.2 h.1.ink
    rw [spread_cons]
    rcases Nat.le_one_iff_eq_zero_or_eq_one.mp h.1.gap with h0 | h1
    · rw [h0]
      exact .cons_cons (.inl hl) hnext
    · rw [h1]
      exact .cons_cons (.inl hl) (.cons_cons (.inr h.1.ink) hnext)

/-- A text without white space at the end of a line, without a blank line at the start or behind
another one, and with one line feed at the end. -/
structure Clean (text : String) : Prop where
  final : ∃ front, text.toList = front ++ ['\n'] ∧ front.getLast? ≠ some '\n'
  lined : unlines (lines text.toList) = text.toList
  leading : text = "\n" ∨ ∃ l ls, lines text.toList = l :: ls ∧ isBlankLine l = false
  trimmed : ∀ l ∈ lines text.toList, trimEnd l = l
  apart : (lines text.toList).IsChain fun a b => isBlankLine a = false ∨ isBlankLine b = false

theorem clean_break : Clean "\n" where
  final := ⟨[], rfl, by simp⟩
  lined := rfl
  leading := .inl rfl
  trimmed := by simp [lines, trimEnd]
  apart := .singleton []

theorem exists_unlines_spread {es : List (Nat × List Char)} (hne : es ≠ [])
    (h : ∀ e ∈ es, Tight e) :
    ∃ front, unlines (spread es) = front ++ ['\n'] ∧ front.getLast? ≠ some '\n' := by
  obtain ⟨es, e, rfl⟩ := List.eq_nil_or_concat es |>.resolve_left hne
  have he : Tight e := h e (by simp)
  refine ⟨unlines (spread es ++ List.replicate e.1 []) ++ e.2, ?_, ?_⟩
  · simp [spread, unlines]
  · rw [List.getLast?_append_of_ne_nil _ he.ne_nil]
    exact he.getLast?_ne (by decide)

theorem clean_of_tight {text : String} {l : List Char} {es : List (Nat × List Char)}
    (h : ∀ e ∈ (0, l) :: es, Tight e) (htext : text.toList = unlines (spread ((0, l) :: es))) :
    Clean text := by
  have hlines : lines text.toList = spread ((0, l) :: es) := by rw [htext, lines_unlines_spread h]
  have hcons : spread ((0, l) :: es) = l :: spread es := rfl
  have hl := (h _ List.mem_cons_self).ink
  refine ⟨?_, ?_, .inr ⟨l, spread es, hlines.trans hcons, hl⟩, ?_, ?_⟩
  · rw [htext]
    exact exists_unlines_spread (List.cons_ne_nil _ _) h
  · rw [hlines, htext]
  · rw [hlines]
    exact forall_mem_spread rfl fun e he => (h e he).trimmed
  · rw [hlines, hcons]
    exact isChain_spread (fun e he => h e (List.mem_cons_of_mem _ he)) hl

/-- The lines of a laid out text are the snug spacing, and without any there is one blank line. -/
theorem tidy_cases (text : String) :
    snug (spacing 0 (lines text.toList)) = [] ∧ tidy text = "\n" ∨
      ∃ l es, snug (spacing 0 (lines text.toList)) = (0, l) :: es ∧
        (tidy text).toList = unlines (spread ((0, l) :: es)) := by
  rw [tidy, dropBlankEnd_squeeze_true 0]
  cases spacing 0 (lines text.toList) with
  | nil => exact .inl ⟨rfl, rfl⟩
  | cons e es =>
    refine .inr ⟨trimEnd e.2, es.map tighten, rfl, ?_⟩
    exact String.toList_ofList

theorem clean_tidy (text : String) : Clean (tidy text) := by
  obtain ⟨-, h⟩ | ⟨l, es, hs, h⟩ := tidy_cases text
  · rw [h]
    exact clean_break
  · refine clean_of_tight (fun e he => ?_) h
    rw [← hs] at he
    exact tight_of_mem_snug he

theorem spacing_tidy (text : String) :
    spacing 0 (lines (tidy text).toList) = snug (spacing 0 (lines text.toList)) := by
  obtain ⟨hs, h⟩ | ⟨l, es, hs, h⟩ := tidy_cases text
  · rw [hs, h]
    rfl
  · have htight : ∀ e ∈ (0, l) :: es, Tight e := by
      rw [← hs]
      exact fun e he => tight_of_mem_snug he
    rw [hs, h, lines_unlines_spread htight, spacing_spread fun e he => (htight e he).ink]

theorem tidy_eq_of_spacing {text text' : String}
    (h : snug (spacing 0 (lines text.toList)) = snug (spacing 0 (lines text'.toList))) :
    tidy text = tidy text' := by
  rw [tidy, tidy, dropBlankEnd_squeeze_true 0, dropBlankEnd_squeeze_true 0, h]

/-! ### The characters that are not white space -/

def visible (cs : List Char) : List Char := cs.filter fun c => !isBlank c

theorem visible_eq_nil {l : List Char} (h : isBlankLine l = true) : visible l = [] := by
  rw [isBlankLine, List.all_eq_true] at h
  exact List.filter_eq_nil_iff.mpr fun c hc => by simp [h c hc]

theorem visible_trimEnd (l : List Char) : visible (trimEnd l) = visible l := by
  induction l using List.reverseRecOn with
  | nil => rfl
  | append_singleton l c ih =>
    cases hc : isBlank c with
    | true =>
      rw [trimEnd_concat_blank hc, ih]
      simp [visible, hc]
    | false => rw [trimEnd_concat hc]

theorem visible_eq_flatMap_lines (cs : List Char) : visible cs = (lines cs).flatMap visible := by
  induction cs using lines_induct with
  | nil => rfl
  | feed cs ih | ret cs ih => exact ih
  | char c cs hn hr ih =>
    have hcons : ∀ l, visible (c :: l) = visible [c] ++ visible l :=
      fun l => List.filter_append [c] l
    rw [lines_cons hn hr, hcons, ih]
    cases lines cs with
    | nil => simp [consLine]
    | cons l ls => rw [consLine, List.flatMap_cons, List.flatMap_cons, hcons l, List.append_assoc]

theorem flatMap_visible_inked (ls : List (List Char)) :
    (inked ls).flatMap visible = ls.flatMap visible := by
  induction ls with
  | nil => rfl
  | cons l ls ih =>
    cases h : isBlankLine l with
    | true => rw [List.flatMap_cons, visible_eq_nil h, List.nil_append, ← ih, inked_of_blank h]
    | false => rw [List.flatMap_cons, ← ih, inked_of_ink h, List.flatMap_cons]

theorem inked_tidy (text : String) :
    inked (lines (tidy text).toList) = (inked (lines text.toList)).map trimEnd := by
  rw [← map_snd_spacing 0, spacing_tidy, map_snd_snug, map_snd_spacing]

theorem visible_tidy (text : String) : visible (tidy text).toList = visible text.toList := by
  rw [visible_eq_flatMap_lines, visible_eq_flatMap_lines, ← flatMap_visible_inked, inked_tidy,
    List.flatMap_map, ← flatMap_visible_inked]
  exact List.flatMap_congr fun l _ => visible_trimEnd l

/-- The clean layout is a normal form that only changes white space. The lines with something on
them stay in order, without the white space at their ends, and one blank line stays between
two of them where there was any. -/
theorem tidy_normal_form (text : String) :
    Clean (tidy text) ∧ inked (lines (tidy text).toList) = (inked (lines text.toList)).map trimEnd ∧
      gaps (lines (tidy text).toList) = (gaps (lines text.toList)).map (min · 1) ∧
      visible (tidy text).toList = visible text.toList ∧ tidy (tidy text) = tidy text := by
  refine ⟨clean_tidy text, inked_tidy text, ?_, visible_tidy text, ?_⟩
  · rw [gaps, spacing_tidy, tail_map_fst_snug, ← gaps]
  · refine tidy_eq_of_spacing ?_
    rw [spacing_tidy, snug_snug]

/-- A carriage return goes with the line feed behind it; any other one on a line stays. -/
example : tidy "\n \na \r\n\t\n\r\n b\rc\n\n" = "a\n\n b\rc\n" := by decide

end DesignComponents.Text
