import DesignComponents.Proofs.Identifier.Grammar
import Mathlib.Logic.Relation

/-! Bases and separators. The words of a text are those of its parts before and behind a separator,
so it does not matter how a run of separators is written, nor whether there is one at either end
of the text. A tag is the text of its own words, so it is its own base. -/

namespace DesignComponents.Identifier

/-! ### Words around separators -/

/-- A text in which nothing is a letter or a digit. -/
def Separates (sep : List Char) : Prop := ∀ c ∈ sep, c.isAlphanum = false

instance : DecidablePred Separates := fun sep => List.decidableBAll _ sep

theorem chunks_cons_separator {c : Char} (hc : c.isAlphanum = false) (text : List Char) :
    chunks (c :: text) = chunks text := by
  cases text <;> simp [chunks, hc]

/-- A letter or digit goes into the first run if one starts right behind it. -/
theorem exists_chunks_cons {c d : Char} (hc : c.isAlphanum = true) (hd : d.isAlphanum = true)
    (text : List Char) :
    ∃ w ws, chunks (d :: text) = w :: ws ∧ chunks (c :: d :: text) = (c :: w) :: ws := by
  have hcons : ∃ w ws, chunks (d :: text) = w :: ws := by
    cases text with
    | nil => exact ⟨[d], [], by simp [chunks, hd]⟩
    | cons e text =>
      rw [chunks, if_pos hd]
      split
      · exact ⟨_, _, rfl⟩
      · exact ⟨_, _, rfl⟩
  obtain ⟨w, ws, hw⟩ := hcons
  refine ⟨w, ws, hw, ?_⟩
  rw [chunks, if_pos hc, hw, hd]

theorem chunks_cons_cons_separator {c d : Char} (hc : c.isAlphanum = true)
    (hd : d.isAlphanum = false) (text : List Char) :
    chunks (c :: d :: text) = [c] :: chunks text := by
  simp [chunks, hc, hd, chunks_cons_separator hd]

/-- A separator parts a text into two with runs of their own. -/
theorem chunks_append_cons {c : Char} (hc : c.isAlphanum = false) (before after : List Char) :
    chunks (before ++ c :: after) = chunks before ++ chunks after := by
  induction before with
  | nil => exact chunks_cons_separator hc after
  | cons d before ih =>
    by_cases hd : d.isAlphanum = true
    · cases before with
      | nil => simp [chunks_cons_cons_separator hd hc, chunks, hd]
      | cons e before =>
        by_cases he : e.isAlphanum = true
        · obtain ⟨w, ws, hbefore, hd'⟩ := exists_chunks_cons hd he before
          obtain ⟨v, vs, hall, hd''⟩ := exists_chunks_cons hd he (before ++ c :: after)
          rw [List.cons_append] at ih
          rw [hbefore, hall, List.cons_append, List.cons.injEq] at ih
          rw [List.cons_append, List.cons_append, hd'', hd', ih.1, ih.2, List.cons_append]
        · rw [Bool.not_eq_true] at he
          rw [List.cons_append, chunks_cons_separator he] at ih
          rw [List.cons_append, List.cons_append, chunks_cons_cons_separator hd he,
            chunks_cons_cons_separator hd he, ih, chunks_cons_separator he, List.cons_append]
    · rw [Bool.not_eq_true] at hd
      rw [List.cons_append, chunks_cons_separator hd, chunks_cons_separator hd, ih]

theorem chunks_separators_append {sep : List Char} (h : Separates sep) (text : List Char) :
    chunks (sep ++ text) = chunks text := by
  induction sep with
  | nil => rfl
  | cons c sep ih =>
    rw [Separates, List.forall_mem_cons] at h
    rw [List.cons_append, chunks_cons_separator h.1, ih h.2]

theorem words_between {sep : List Char} (hne : sep ≠ []) (h : Separates sep)
    (before after : List Char) : words (before ++ sep ++ after) = words before ++ words after := by
  obtain ⟨c, sep, rfl⟩ := List.exists_cons_of_ne_nil hne
  rw [Separates, List.forall_mem_cons] at h
  rw [List.append_assoc, List.cons_append, words, chunks_append_cons h.1,
    chunks_separators_append h.2, List.flatMap_append]
  rfl

theorem words_around {start stop : List Char} (hstart : Separates start) (hstop : Separates stop)
    (text : List Char) : words (start ++ text ++ stop) = words text := by
  by_cases hne : stop = []
  · rw [hne, List.append_nil, words, chunks_separators_append hstart]
    rfl
  · rw [← List.append_nil (start ++ text ++ stop), words_between hne hstop, words,
      chunks_separators_append hstart]
    exact List.append_nil _

/-- A base depends on nothing but the words. -/
theorem Namespace.normalize_eq_of_words {raw raw' : String}
    (h : words raw.toList = words raw'.toList) (space : Namespace) :
    space.normalize raw = space.normalize raw' := by
  have hcased : space.cased raw.toList = space.cased raw'.toList := by
    cases space with
    | tag => exact congrArg (joinDashed ∘ List.map lower) h
    | className => exact congrArg (List.flatMap capitalize) h
    | member =>
      show camel _ = camel _
      rw [camel, camel, h]
  rw [Namespace.normalize, Namespace.normalize, hcased]

/-- One text from another, by a change of the separators between two parts that keeps them apart, or
by a change of those at the ends. -/
inductive Respaced : String → String → Prop
  | between (before sep sep' after : String) (hne : sep ≠ "") (hne' : sep' ≠ "")
      (h : Separates sep.toList) (h' : Separates sep'.toList) :
      Respaced (before ++ sep ++ after) (before ++ sep' ++ after)
  | around (text start stop start' stop' : String) (hstart : Separates start.toList)
      (hstop : Separates stop.toList) (hstart' : Separates start'.toList)
      (hstop' : Separates stop'.toList) :
      Respaced (start ++ text ++ stop) (start' ++ text ++ stop')

theorem Respaced.words_eq {raw raw' : String} (h : Respaced raw raw') :
    words raw.toList = words raw'.toList := by
  cases h with
  | between before sep sep' after hne hne' h h' =>
    simp only [String.toList_append]
    rw [words_between (by simpa using hne) h, words_between (by simpa using hne') h']
  | around text start stop start' stop' hstart hstop hstart' hstop' =>
    simp only [String.toList_append]
    rw [words_around hstart hstop, words_around hstart' hstop']

/-! ### Words of tags -/

theorem chunks_eq_singleton {w : List Char} (hne : w ≠ []) (h : ∀ c ∈ w, c.isAlphanum = true) :
    chunks w = [w] := by
  induction w with
  | nil => exact absurd rfl hne
  | cons c w ih =>
    rw [List.forall_mem_cons] at h
    cases w with
    | nil => simp [chunks, h.1]
    | cons d w =>
      rw [List.forall_mem_cons] at h
      obtain ⟨v, vs, hv, hcons⟩ := exists_chunks_cons h.1 h.2.1 w
      rw [ih (List.cons_ne_nil d w) (List.forall_mem_cons.mpr h.2)] at hv
      cases hv
      exact hcons

/-- Without capitals no word starts inside a run. -/
theorem cut_eq_singleton {w : List Char} (hne : w ≠ []) (h : ∀ c ∈ w, c.isUpper = false) :
    cut w = [w] := by
  induction w with
  | nil => exact absurd rfl hne
  | cons c w ih =>
    rw [List.forall_mem_cons] at h
    cases w with
    | nil => rfl
    | cons d w =>
      have hd : d.isUpper = false := h.2 d List.mem_cons_self
      have hstart : startsWord c (d :: w) = false := by cases w <;> simp [startsWord, hd]
      rw [cut, hstart, ih (List.cons_ne_nil d w) h.2]

theorem isUpper_eq_false {c : Char} (h : c.isLower = true ∨ c.isDigit = true) :
    c.isUpper = false := by
  rw [isLower_iff, isDigit_iff] at h
  rw [← Bool.not_eq_true, isUpper_iff]
  omega

theorem IsTagWord.words_eq {w : List Char} (h : IsTagWord w) : words w = [w] := by
  have halnum : ∀ c ∈ w, c.isAlphanum = true := fun c hc =>
    (isAlphanum_cases c).mpr (.inr (h.2 c hc))
  have hcut : cut w = [w] := cut_eq_singleton h.1 fun c hc => isUpper_eq_false (h.2 c hc)
  rw [words, chunks_eq_singleton h.1 halnum, List.flatMap_cons, hcut]
  rfl

theorem IsTagWord.lower_eq {w : List Char} (h : IsTagWord w) : lower w = w := by
  refine (List.map_congr_left fun c hc => ?_).trans (List.map_id w)
  have hupper := isUpper_eq_false (h.2 c hc)
  unfold Char.toLower
  split_ifs with hu
  · exact absurd (decide_eq_true hu) (ne_true_of_eq_false hupper)
  · rfl

/-- The words of a tag are the words between its dashes. -/
theorem words_intercalate {ws : List (List Char)} (h : ∀ w ∈ ws, IsTagWord w) :
    words (['-'].intercalate ws) = ws := by
  induction ws with
  | nil => rfl
  | cons w ws ih =>
    rw [List.forall_mem_cons] at h
    by_cases hws : ws = []
    · rw [hws, List.intercalate_singleton, h.1.words_eq]
    · rw [List.intercalate_cons_of_ne_nil hws, words_between (List.cons_ne_nil _ _) (by decide),
        h.1.words_eq, ih h.2, List.singleton_append]

theorem kebab_intercalate {ws : List (List Char)} (h : ∀ w ∈ ws, IsTagWord w) :
    kebab (['-'].intercalate ws) = ['-'].intercalate ws := by
  have hlower : ws.map lower = ws :=
    (List.map_congr_left fun w hw => (h w hw).lower_eq).trans (List.map_id ws)
  rw [kebab, words_intercalate h, hlower, joinDashed_eq]

/-- Nothing is missing in a tag that a base needs. -/
theorem IsTagBase.normalize_eq {name : String} (h : IsTagBase name.toList) :
    Namespace.tag.normalize name = name := by
  obtain ⟨ws, -, hws, hname⟩ := h.words
  obtain ⟨c, cs, hcons, hc⟩ := h.letter
  have hdigit : c.isDigit = false := by
    rw [isLower_iff] at hc
    rw [← Bool.not_eq_true, isDigit_iff]
    omega
  have hkebab : kebab name.toList = name.toList := by rw [hname, kebab_intercalate hws]
  have hguarded : Namespace.tag.guarded name.toList = name.toList := by
    rw [hcons, Namespace.guarded, hdigit, if_neg Bool.false_ne_true]
  have hfallback : Namespace.tag.orFallback name.toList = name.toList := by rw [hcons]; rfl
  have hending : Namespace.tag.ending.isSuffixOf name.toList = true :=
    List.isSuffixOf_iff_suffix.mpr h.ending
  rw [Namespace.normalize, Namespace.cased, hkebab, hfallback, hguarded, Namespace.ended,
    if_pos hending, String.ofList_toList]

/-! ### The result -/

/-- The base of a tag is the tag, and texts that differ in nothing but their separators have the
same base in every namespace, as long as the same parts are kept apart. -/
theorem bases_respaced :
    (∀ raw : String,
      Namespace.tag.normalize (Namespace.tag.normalize raw) = Namespace.tag.normalize raw) ∧
    ∀ raw raw' : String, Relation.ReflTransGen Respaced raw raw' →
      ∀ space : Namespace, space.normalize raw = space.normalize raw' := by
  refine ⟨fun raw => (Namespace.isBase_tag raw).normalize_eq, fun raw raw' h space => ?_⟩
  induction h with
  | refl => rfl
  | tail _ hstep ih => exact ih.trans (space.normalize_eq_of_words hstep.words_eq)

/-- A name with a slash for a space, and without the blanks and the bracket around it. -/
theorem twoColumns_bases_respaced :
    Relation.ReflTransGen Respaced " 2 Columns\u00a0)" "2/Columns" ∧
      ∀ space : Namespace, space.normalize " 2 Columns\u00a0)" = space.normalize "2/Columns" := by
  have hends : Respaced " 2 Columns\u00a0)" "2 Columns" :=
    .around "2 Columns" " " "\u00a0)" "" "" (by decide) (by decide) (by decide) (by decide)
  have hspace : Respaced "2 Columns" "2/Columns" :=
    .between "2" " " "/" "Columns" (by decide) (by decide) (by decide) (by decide)
  have hall := (Relation.ReflTransGen.single hends).tail hspace
  exact ⟨hall, bases_respaced.2 _ _ hall⟩

example : Namespace.tag.normalize "2/Columns" = "x-2-columns-element" := by decide

end DesignComponents.Identifier
