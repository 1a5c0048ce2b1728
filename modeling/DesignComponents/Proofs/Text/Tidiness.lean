import DesignComponents.Text.Lines
import Mathlib.Data.List.DropRight
import Mathlib.Tactic.Common

/-! What the clean layout keeps. Of a text that starts and ends in a line with something on it, it
keeps every line that is not blank, without the white space at its end, and every run of blank
lines as one blank line. -/

namespace DesignComponents.Text

/-! ### Trimming -/

theorem trimEnd_eq_rdropWhile (l : List Char) : trimEnd l = l.rdropWhile isBlank := rfl

theorem trimEnd_trimEnd (l : List Char) : trimEnd (trimEnd l) = trimEnd l :=
  List.rdropWhile_idempotent isBlank l

theorem trimEnd_subset (l : List Char) : trimEnd l ⊆ l := (List.rdropWhile_prefix isBlank l).subset

theorem trimEnd_concat {c : Char} (h : isBlank c = false) (l : List Char) :
    trimEnd (l ++ [c]) = l ++ [c] :=
  List.rdropWhile_concat_neg isBlank l c (by simp [h])

theorem trimEnd_concat_blank {c : Char} (h : isBlank c = true) (l : List Char) :
    trimEnd (l ++ [c]) = trimEnd l := by
  rw [trimEnd_eq_rdropWhile, List.rdropWhile_concat_pos _ _ _ h]
  rfl

theorem trimEnd_append {l : List Char} (h : trimEnd l ≠ []) (front : List Char) :
    trimEnd (front ++ l) = front ++ trimEnd l := by
  have hdrop : List.isEmpty (l.reverse.dropWhile isBlank) = false := by
    simpa [trimEnd] using h
  rw [trimEnd, List.reverse_append, List.dropWhile_append, if_neg (by simp [hdrop]),
    List.reverse_append, List.reverse_reverse]
  rfl

theorem getLast?_trimEnd_ne {c : Char} (h : isBlank c = true) (l : List Char) :
    (trimEnd l).getLast? ≠ some c := by
  intro hl
  obtain ⟨l', hl'⟩ := List.getLast?_eq_some_iff.mp hl
  have hself := trimEnd_trimEnd l
  rw [hl', trimEnd_concat_blank h] at hself
  have hlen : (trimEnd l').length ≤ l'.length :=
    (List.rdropWhile_prefix isBlank l').length_le
  rw [hself, List.length_append, List.length_singleton] at hlen
  omega

/-! ### Lines -/

/-- A character in front of lines stands on the first of them. -/
def consLine (c : Char) : List (List Char) → List (List Char)
  | [] => [[c]]
  | l :: ls => (c :: l) :: ls

theorem consLine_append {ls : List (List Char)} (h : ls ≠ []) (c : Char) (ls' : List (List Char)) :
    consLine c (ls ++ ls') = consLine c ls ++ ls' := by
  cases ls with
  | nil => exact absurd rfl h
  | cons l ls => rfl

theorem lines_cons {c : Char} {cs : List Char} (hn : c ≠ '\n')
    (hr : c = '\r' → cs.head? ≠ some '\n') : lines (c :: cs) = consLine c (lines cs) := by
  rw [lines]
  · cases lines cs <;> rfl
  · exact hn
  · rintro cs' hc rfl
    exact hr hc rfl

/-- Induction over the characters of a text, with line ends as one step. -/
@[elab_as_elim]
theorem lines_induct {motive : List Char → Prop} (nil : motive [])
    (feed : ∀ cs, motive cs → motive ('\n' :: cs))
    (ret : ∀ cs, motive cs → motive ('\r' :: '\n' :: cs))
    (char : ∀ c cs, c ≠ '\n' → (c = '\r' → cs.head? ≠ some '\n') → motive cs → motive (c :: cs))
    (cs : List Char) : motive cs := by
  have hchar : ∀ c cs, (c = '\n' → False) → (∀ cs', c = '\r' → cs = '\n' :: cs' → False) →
      motive cs → motive (c :: cs) := by
    intro c cs hn hr
    refine char c cs hn fun hc hhead => ?_
    obtain ⟨cs', rfl⟩ := List.head?_eq_some_iff.mp hhead
    exact hr cs' hc rfl
  fun_induction lines cs with
  | case1 => exact nil
  | case2 cs ih => exact feed cs ih
  | case3 cs ih => exact ret cs ih
  | case4 c cs hn hr _ ih | case5 c cs hn hr _ _ _ ih => exact hchar c cs hn hr ih

theorem lines_ne_nil {cs : List Char} (h : cs ≠ []) : lines cs ≠ [] := by
  induction cs using lines_induct with
  | nil => exact absurd rfl h
  | feed cs _ | ret cs _ => exact List.cons_ne_nil _ _
  | char c cs hn hr _ =>
    rw [lines_cons hn hr]
    cases lines cs <;> exact List.cons_ne_nil _ _

/-- Lines on both sides of a line break are apart. -/
theorem lines_append_break (a b : List Char) :
    lines (a ++ '\n' :: b) = lines (a ++ ['\n']) ++ lines b := by
  induction a using lines_induct with
  | nil => rfl
  | feed cs ih => exact congrArg ([] :: ·) ih
  | ret cs ih => exact congrArg ([] :: ·) ih
  | char c cs hn hr ih =>
    cases cs with
    | nil =>
      by_cases hc : c = '\r'
      · subst hc
        rfl
      · have hr' : ∀ cs' : List Char, c = '\r' → cs'.head? ≠ some '\n' := fun _ h => absurd h hc
        rw [List.singleton_append, lines_cons hn (hr' _), List.singleton_append,
          lines_cons hn (hr' _)]
        rfl
    | cons d cs =>
      have hcons : ∀ x, lines (c :: d :: cs ++ x) = consLine c (lines (d :: cs ++ x)) :=
        fun _ => lines_cons hn hr
      rw [hcons, hcons, ih, consLine_append (lines_ne_nil (by simp))]

theorem break_notMem_of_mem_lines {cs l : List Char} (h : l ∈ lines cs) : '\n' ∉ l := by
  induction cs using lines_induct generalizing l with
  | nil => cases h
  | feed cs ih | ret cs ih =>
    rcases List.mem_cons.mp h with rfl | h
    · exact List.not_mem_nil
    · exact ih h
  | char c cs hn hr ih =>
    rw [lines_cons hn hr] at h
    cases hl : lines cs with
    | nil =>
      rw [hl] at h
      rw [List.mem_singleton.mp h, List.mem_singleton]
      exact Ne.symm hn
    | cons l' ls =>
      rw [hl] at h ih
      rcases List.mem_cons.mp h with rfl | h
      · rw [List.mem_cons, not_or]
        exact ⟨Ne.symm hn, ih List.mem_cons_self⟩
      · exact ih (List.mem_cons_of_mem _ h)

/-- A line in front of a line break is read as it is, unless a carriage return ends it. -/
theorem lines_line {l : List Char} (hn : '\n' ∉ l) (hr : l.getLast? ≠ some '\r')
    (rest : List Char) : lines (l ++ '\n' :: rest) = l :: lines rest := by
  induction l with
  | nil => rfl
  | cons c l ih =>
    rw [List.mem_cons, not_or] at hn
    have hlast : l.getLast? ≠ some '\r' := by
      intro h
      obtain ⟨l', rfl⟩ := List.getLast?_eq_some_iff.mp h
      exact hr (by rw [← List.cons_append, List.getLast?_concat])
    have hc : c = '\r' → (l ++ '\n' :: rest).head? ≠ some '\n' := by
      intro hc hhead
      cases l with
      | nil => exact hr (by rw [hc, List.getLast?_singleton])
      | cons d l => exact hn.2 (by rw [Option.some.inj hhead]; exact List.mem_cons_self)
    rw [List.cons_append, lines_cons (Ne.symm hn.1) hc, ih hn.2 hlast]
    rfl

theorem lines_unlines {ls : List (List Char)} (hn : ∀ l ∈ ls, '\n' ∉ l)
    (hr : ∀ l ∈ ls, l.getLast? ≠ some '\r') : lines (unlines ls) = ls := by
  induction ls with
  | nil => rfl
  | cons l ls ih =>
    rw [List.forall_mem_cons] at hn hr
    have hcons : unlines (l :: ls) = l ++ '\n' :: unlines ls := by simp [unlines]
    rw [hcons, lines_line hn.1 hr.1, ih hn.2 hr.2]

/-- A text that ends in a character on a line has that line last. -/
theorem exists_lines_concat {c : Char} (hn : c ≠ '\n') (hr : c ≠ '\r') (cs : List Char) :
    ∃ ls l, lines (cs ++ [c, '\n']) = ls ++ [l ++ [c]] := by
  have hret : ∀ cs' : List Char, c = '\r' → cs'.head? ≠ some '\n' := fun _ h => absurd h hr
  induction cs using lines_induct with
  | nil => exact ⟨[], [], by rw [List.nil_append, lines_cons hn (hret _)]; rfl⟩
  | feed cs ih | ret cs ih =>
    obtain ⟨ls, l, h⟩ := ih
    exact ⟨[] :: ls, l, congrArg ([] :: ·) h⟩
  | char d cs hdn hdr ih =>
    obtain ⟨ls, l, h⟩ := ih
    have hdr' : d = '\r' → (cs ++ [c, '\n']).head? ≠ some '\n' := by
      intro hd
      cases cs with
      | nil => simpa using hn
      | cons e cs => exact hdr hd
    rw [List.cons_append, lines_cons hdn hdr', h]
    cases ls with
    | nil => exact ⟨[], d :: l, rfl⟩
    | cons l' ls => exact ⟨(d :: l') :: ls, l, rfl⟩

/-! ### The layout -/

/-- What of some lines is kept: every line with something on it, without the white space at its end,
and blank lines, of which neighbours may be merged. -/
inductive Keeps : List (List Char) → List (List Char) → Prop
  | nil : Keeps [] []
  | line {l : List Char} {ls kept : List (List Char)} (hl : trimEnd l ≠ []) (h : Keeps ls kept) :
      Keeps (l :: ls) (trimEnd l :: kept)
  | blank {l : List Char} {ls kept : List (List Char)} (hl : trimEnd l = []) (h : Keeps ls kept) :
      Keeps (l :: ls) ([] :: kept)
  | merge {l : List Char} {ls kept : List (List Char)} (hl : trimEnd l = [])
      (h : Keeps ls ([] :: kept)) : Keeps (l :: ls) ([] :: kept)

theorem squeeze_cons_of_ne_nil {l : List Char} (h : trimEnd l ≠ []) (afterBlank : Bool)
    (ls : List (List Char)) : squeeze afterBlank (l :: ls) = trimEnd l :: squeeze false ls := by
  rw [squeeze]
  split
  · next hl => exact absurd hl h
  · next c cs hl => rw [hl]

theorem squeeze_cons_of_eq_nil {l : List Char} (h : trimEnd l = []) (ls : List (List Char)) :
    squeeze false (l :: ls) = [] :: squeeze true ls ∧ squeeze true (l :: ls) = squeeze true ls := by
  simp [squeeze, h]

/-- Squeezing starts anew behind a line with something on it. -/
theorem squeeze_append {l : List Char} (h : trimEnd l ≠ []) (afterBlank : Bool)
    (above below : List (List Char)) :
    squeeze afterBlank (above ++ l :: below) =
      squeeze afterBlank above ++ trimEnd l :: squeeze false below := by
  induction above generalizing afterBlank with
  | nil => rw [List.nil_append, squeeze_cons_of_ne_nil h]; rfl
  | cons l' above ih =>
    rw [List.cons_append]
    by_cases hl : trimEnd l' = []
    · have hleft := squeeze_cons_of_eq_nil hl (above ++ l :: below)
      have hright := squeeze_cons_of_eq_nil hl above
      cases afterBlank with
      | false => rw [hleft.1, hright.1, ih, List.cons_append]
      | true => rw [hleft.2, hright.2, ih]
    · rw [squeeze_cons_of_ne_nil hl, squeeze_cons_of_ne_nil hl, ih, List.cons_append]

theorem mem_squeeze {afterBlank : Bool} {ls : List (List Char)} {k : List Char}
    (h : k ∈ squeeze afterBlank ls) : ∃ l ∈ ls, k = trimEnd l := by
  induction ls generalizing afterBlank with
  | nil => cases h
  | cons l ls ih =>
    have hrest : ∀ {b}, k ∈ squeeze b ls → ∃ l' ∈ l :: ls, k = trimEnd l' := by
      intro b hk
      obtain ⟨l', hl', hk⟩ := ih hk
      exact ⟨l', List.mem_cons_of_mem _ hl', hk⟩
    by_cases hl : trimEnd l = []
    · have hcons := squeeze_cons_of_eq_nil hl ls
      cases afterBlank with
      | true => exact hrest (hcons.2 ▸ h)
      | false =>
        rw [hcons.1] at h
        rcases List.mem_cons.mp h with rfl | h
        · exact ⟨l, List.mem_cons_self, hl.symm⟩
        · exact hrest h
    · rw [squeeze_cons_of_ne_nil hl] at h
      rcases List.mem_cons.mp h with rfl | h
      · exact ⟨l, List.mem_cons_self, rfl⟩
      · exact hrest h

/-- Squeezing keeps the lines; the second part is for a blank line that stays in front of them. -/
theorem keeps_squeeze_aux (ls : List (List Char)) :
    Keeps ls (squeeze false ls) ∧
      ∀ l, trimEnd l = [] → Keeps (l :: ls) ([] :: squeeze true ls) := by
  induction ls with
  | nil => exact ⟨.nil, fun l hl => .blank hl .nil⟩
  | cons l' ls ih =>
    obtain ⟨hkeep, hblank⟩ := ih
    by_cases hl' : trimEnd l' = []
    · have hcons := squeeze_cons_of_eq_nil hl' ls
      rw [hcons.1, hcons.2]
      exact ⟨hblank l' hl', fun l hl => .merge hl (hblank l' hl')⟩
    · rw [squeeze_cons_of_ne_nil hl', squeeze_cons_of_ne_nil hl']
      exact ⟨.line hl' hkeep, fun l hl => .blank hl (.line hl' hkeep)⟩

theorem keeps_squeeze (ls : List (List Char)) : Keeps ls (squeeze false ls) :=
  (keeps_squeeze_aux ls).1

/-- The clean layout is read back as its lines. -/
theorem lines_unlines_squeeze {afterBlank : Bool} {ls : List (List Char)}
    (h : ∀ l ∈ ls, '\n' ∉ l) :
    lines (unlines (squeeze afterBlank ls)) = squeeze afterBlank ls := by
  refine lines_unlines (fun k hk => ?_) fun k hk => ?_
  · obtain ⟨l, hl, rfl⟩ := mem_squeeze hk
    exact fun hm => h l hl (trimEnd_subset l hm)
  · obtain ⟨l, -, rfl⟩ := mem_squeeze hk
    exact getLast?_trimEnd_ne (by decide) l

/-- A text between two lines with something on them. -/
structure Framed (ls : List (List Char)) : Prop where
  first : ∃ l ls', ls = l :: ls' ∧ trimEnd l ≠ []
  last : ∃ ls' l, ls = ls' ++ [l] ∧ trimEnd l ≠ []

theorem Framed.squeeze_true {ls : List (List Char)} (h : Framed ls) :
    squeeze true ls = squeeze false ls := by
  obtain ⟨l, ls', rfl, hl⟩ := h.first
  rw [squeeze_cons_of_ne_nil hl, squeeze_cons_of_ne_nil hl]

theorem Framed.dropBlankEnd_squeeze {ls : List (List Char)} (h : Framed ls) :
    dropBlankEnd (squeeze false ls) = squeeze false ls := by
  obtain ⟨ls', l, rfl, hl⟩ := h.last
  have hink : List.isEmpty (trimEnd l) = false := by simpa using hl
  rw [squeeze_append hl, squeeze]
  exact List.rdropWhile_concat_neg _ _ _ (by simp [hink])

end DesignComponents.Text
