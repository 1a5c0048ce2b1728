import DesignComponents.Proofs.Identifier.Calls
import DesignComponents.Proofs.Number.Digits

/-! The grammar of names. A tag is made of words between dashes, a class or a member of letters and
digits, and each may have a number behind an underscore. So the languages that generated source
is written in take every name for what it is used as, whatever text it comes from. -/

namespace DesignComponents.Identifier

/-! ### The grammar -/

/-- A word of a tag. -/
def IsTagWord (w : List Char) : Prop := w ≠ [] ∧ ∀ c ∈ w, c.isLower = true ∨ c.isDigit = true

instance : DecidablePred IsTagWord := fun w =>
  @instDecidableAnd _ _ inferInstance (List.decidableBAll _ w)

/-- Words joined by single dashes, with a letter at the start and the ending of tags. -/
structure IsTagBase (name : List Char) : Prop where
  words : ∃ ws, ws ≠ [] ∧ (∀ w ∈ ws, IsTagWord w) ∧ name = ['-'].intercalate ws
  letter : ∃ c cs, name = c :: cs ∧ c.isLower = true
  ending : "-element".toList <:+ name

/-- Letters and digits behind a letter of the wanted case, or behind an underscore and a digit. -/
inductive IsWordBase (isLetter : Char → Bool) : List Char → Prop
  | letter {c : Char} {cs : List Char} (hc : isLetter c = true)
      (hcs : ∀ d ∈ cs, d.isAlphanum = true) : IsWordBase isLetter (c :: cs)
  | digit {c : Char} {cs : List Char} (hc : c.isDigit = true)
      (hcs : ∀ d ∈ cs, d.isAlphanum = true) : IsWordBase isLetter ('_' :: c :: cs)

/-- Nothing, or a positive decimal number without leading zeros behind an underscore. -/
inductive IsCounter : List Char → Prop
  | none : IsCounter []
  | number {c : Char} {ds : List Char} (hc : c.isDigit = true) (hzero : c ≠ '0')
      (hds : ∀ d ∈ ds, d.isDigit = true) : IsCounter ('_' :: c :: ds)

namespace Namespace

def IsBase : Namespace → List Char → Prop
  | tag, name => IsTagBase name
  | className, name => IsWordBase Char.isUpper name ∧ "Element".toList <:+ name
  | member, name => IsWordBase Char.isLower name

/-- The spelling of the names of a namespace. -/
def Spells (space : Namespace) (name : String) : Prop :=
  ∃ base counter, name.toList = base ++ counter ∧ space.IsBase base ∧ IsCounter counter

end Namespace

/-! ### Words -/

theorem ne_nil_of_mem_cut {text w : List Char} (h : w ∈ cut text) : w ≠ [] := by
  fun_induction cut text generalizing w with
  | case1 => simp at h
  | case2 d =>
    rw [List.mem_singleton.mp h]
    exact List.cons_ne_nil d []
  | case3 d e cs v vs hcut _ ih =>
    rw [hcut] at ih
    rcases List.mem_cons.mp h with rfl | h
    · exact List.cons_ne_nil d v
    · exact ih (List.mem_cons_of_mem v h)
  | case4 d e cs _ ih =>
    rcases List.mem_cons.mp h with rfl | h
    · exact List.cons_ne_nil d []
    · exact ih h

theorem ne_nil_of_mem_words {text w : List Char} (h : w ∈ words text) : w ≠ [] := by
  obtain ⟨chunk, -, h⟩ := List.mem_flatMap.mp h
  exact ne_nil_of_mem_cut h

/-! ### Letters in one case -/

theorem isLower_or_isDigit_toLower {c : Char} (h : c.isAlphanum = true) :
    c.toLower.isLower = true ∨ c.toLower.isDigit = true := by
  unfold Char.toLower
  split_ifs with hu
  · simp [isLower_iff, UInt32.le_iff_toNat_le] at hu ⊢
    omega
  · refine ((isAlphanum_cases c).mp h).resolve_left fun hupper => hu ?_
    exact of_decide_eq_true hupper

theorem isUpper_or_isDigit_toUpper {c : Char} (h : c.isAlphanum = true) :
    c.toUpper.isUpper = true ∨ c.toUpper.isDigit = true := by
  unfold Char.toUpper
  split_ifs with hl
  · simp [isUpper_iff, UInt32.le_iff_toNat_le] at hl ⊢
    omega
  · rcases (isAlphanum_cases c).mp h with hupper | hlower | hdigit
    · exact .inl hupper
    · simp [isLower_iff, UInt32.le_iff_toNat_le] at hlower hl
      omega
    · exact .inr hdigit

theorem isTagWord_lower {text w : List Char} (h : w ∈ words text) : IsTagWord (lower w) := by
  refine ⟨by simpa [lower] using ne_nil_of_mem_words h, fun c hc => ?_⟩
  obtain ⟨d, hd, rfl⟩ := List.mem_map.mp hc
  exact isLower_or_isDigit_toLower (isAlphanum_of_mem_words h hd)

/-! ### Bases of tags -/

theorem joinDashed_eq (ws : List (List Char)) : joinDashed ws = ['-'].intercalate ws := by
  fun_induction joinDashed ws with
  | case1 => rfl
  | case2 w => rw [List.intercalate_singleton]
  | case3 w ws hne ih =>
    rw [ih, List.intercalate_cons_of_ne_nil (by simpa using hne), List.append_assoc,
      List.singleton_append]

theorem intercalate_concat {sep w : List Char} {ws : List (List Char)} (h : ws ≠ []) :
    sep.intercalate (ws ++ [w]) = sep.intercalate ws ++ (sep ++ w) := by
  induction ws with
  | nil => exact absurd rfl h
  | cons v ws ih =>
    by_cases hws : ws = []
    · subst hws
      simp
    · rw [List.cons_append, List.intercalate_cons_of_ne_nil (by simp),
        List.intercalate_cons_of_ne_nil hws, ih hws, List.append_assoc, List.append_assoc,
        List.append_assoc]

/-- What starts a text of words starts its first word. -/
theorem exists_intercalate_eq_cons {ws : List (List Char)} (hne : ws ≠ [])
    (hws : ∀ w ∈ ws, IsTagWord w) :
    ∃ c cs, ['-'].intercalate ws = c :: cs ∧ (c.isLower = true ∨ c.isDigit = true) := by
  obtain ⟨w, ws, rfl⟩ := List.exists_cons_of_ne_nil hne
  obtain ⟨hw, hchars⟩ := hws w List.mem_cons_self
  obtain ⟨c, cs, rfl⟩ := List.exists_cons_of_ne_nil hw
  have hc := hchars c List.mem_cons_self
  cases ws with
  | nil => exact ⟨c, cs, List.intercalate_singleton, hc⟩
  | cons v ws => exact ⟨c, _, List.intercalate_cons_cons, hc⟩

namespace Namespace

/-- A tag that would start with a digit gets one more word in front. -/
theorem exists_guarded_eq {ws : List (List Char)} (hne : ws ≠ []) (hws : ∀ w ∈ ws, IsTagWord w) :
    ∃ vs, vs ≠ [] ∧ (∀ w ∈ vs, IsTagWord w) ∧
      tag.guarded (['-'].intercalate ws) = ['-'].intercalate vs ∧
      ∃ c cs, ['-'].intercalate vs = c :: cs ∧ c.isLower = true := by
  obtain ⟨c, cs, hcons, hc⟩ := exists_intercalate_eq_cons hne hws
  by_cases hd : c.isDigit = true
  · have hjoin : ['-'].intercalate (['x'] :: ws) = 'x' :: '-' :: c :: cs := by
      rw [List.intercalate_cons_of_ne_nil hne, hcons]
      rfl
    refine ⟨['x'] :: ws, List.cons_ne_nil _ _, ?_, ?_, 'x', _, hjoin, by decide⟩
    · rw [List.forall_mem_cons]
      exact ⟨by decide, hws⟩
    · rw [hcons, guarded, if_pos hd, hjoin]
      rfl
  · refine ⟨ws, hne, hws, ?_, c, cs, hcons, hc.resolve_right hd⟩
    rw [hcons, guarded, if_neg hd]

theorem isTagBase_ended {ws : List (List Char)} (hne : ws ≠ []) (hws : ∀ w ∈ ws, IsTagWord w) :
    IsTagBase (tag.ended (tag.guarded (['-'].intercalate ws))) := by
  obtain ⟨vs, hvs, hwords, hguarded, c, cs, hcons, hc⟩ := exists_guarded_eq hne hws
  rw [hguarded, ended]
  split_ifs with hending
  · exact ⟨⟨vs, hvs, hwords, rfl⟩, ⟨c, cs, hcons, hc⟩, List.isSuffixOf_iff_suffix.mp hending⟩
  · refine ⟨⟨vs ++ ["element".toList], by simp, ?_, ?_⟩, ⟨c, cs ++ tag.ending, ?_, hc⟩, ?_⟩
    · rw [List.forall_mem_append, List.forall_mem_singleton]
      exact ⟨hwords, by decide⟩
    · rw [intercalate_concat hvs]
      rfl
    · rw [hcons, List.cons_append]
    · exact List.suffix_append _ _

theorem isBase_tag (raw : String) : IsTagBase (tag.normalize raw).toList := by
  rw [normalize, String.toList_ofList]
  show IsTagBase (tag.ended (tag.guarded (tag.orFallback (kebab raw.toList))))
  by_cases hw : words raw.toList = []
  · have hfallback : tag.orFallback (kebab raw.toList) = ['-'].intercalate ["node".toList] := by
      rw [kebab, hw]
      rfl
    rw [hfallback]
    exact isTagBase_ended (List.cons_ne_nil _ _) (by decide)
  · have hne : (words raw.toList).map lower ≠ [] := by simpa using hw
    have hws : ∀ w ∈ (words raw.toList).map lower, IsTagWord w :=
      List.forall_mem_map.mpr fun w hw => isTagWord_lower hw
    obtain ⟨c, cs, hcons, -⟩ := exists_intercalate_eq_cons hne hws
    have hkebab : tag.orFallback (kebab raw.toList) =
        ['-'].intercalate ((words raw.toList).map lower) := by
      rw [kebab, joinDashed_eq, hcons]
      rfl
    rw [hkebab]
    exact isTagBase_ended hne hws

end Namespace

/-! ### Bases of classes and members -/

/-- Letters and digits that start with a digit or with a letter of the wanted case. -/
def Headed (isLetter : Char → Bool) (name : List Char) : Prop :=
  ∃ c cs, name = c :: cs ∧ (isLetter c = true ∨ c.isDigit = true) ∧ ∀ d ∈ cs, d.isAlphanum = true

theorem Headed.append {isLetter : Char → Bool} {name : List Char} (h : Headed isLetter name)
    {rest : List Char} (hrest : ∀ d ∈ rest, d.isAlphanum = true) :
    Headed isLetter (name ++ rest) := by
  obtain ⟨c, cs, rfl, hc, hcs⟩ := h
  exact ⟨c, cs ++ rest, rfl, hc, List.forall_mem_append.mpr ⟨hcs, hrest⟩⟩

theorem IsWordBase.append {isLetter : Char → Bool} {name : List Char}
    (h : IsWordBase isLetter name) {rest : List Char} (hrest : ∀ d ∈ rest, d.isAlphanum = true) :
    IsWordBase isLetter (name ++ rest) := by
  cases h with
  | letter hc hcs => exact .letter hc (List.forall_mem_append.mpr ⟨hcs, hrest⟩)
  | digit hc hcs => exact .digit hc (List.forall_mem_append.mpr ⟨hcs, hrest⟩)

theorem headed_lower {text w : List Char} (h : w ∈ words text) : Headed Char.isLower (lower w) := by
  have hchars : ∀ c ∈ w, c.isAlphanum = true := fun c => isAlphanum_of_mem_words h
  obtain ⟨c, cs, rfl⟩ := List.exists_cons_of_ne_nil (ne_nil_of_mem_words h)
  exact ⟨c.toLower, lower cs, rfl, isLower_or_isDigit_toLower (hchars c List.mem_cons_self),
    isAlphanum_of_mem_lower fun d hd => hchars d (List.mem_cons_of_mem c hd)⟩

theorem headed_capitalize {text w : List Char} (h : w ∈ words text) :
    Headed Char.isUpper (capitalize w) := by
  have hchars : ∀ c ∈ w, c.isAlphanum = true := fun c => isAlphanum_of_mem_words h
  obtain ⟨c, cs, rfl⟩ := List.exists_cons_of_ne_nil (ne_nil_of_mem_words h)
  exact ⟨c.toUpper, lower cs, rfl, isUpper_or_isDigit_toUpper (hchars c List.mem_cons_self),
    isAlphanum_of_mem_lower fun d hd => hchars d (List.mem_cons_of_mem c hd)⟩

theorem headed_pascal {text : List Char} (h : words text ≠ []) :
    Headed Char.isUpper (pascal text) := by
  obtain ⟨w, ws, hw⟩ := List.exists_cons_of_ne_nil h
  have hmem : w ∈ words text := hw ▸ List.mem_cons_self
  have hsub : ws ⊆ words text := hw ▸ List.subset_cons_self w ws
  rw [pascal, hw, List.flatMap_cons]
  exact (headed_capitalize hmem).append (isAlphanum_of_mem_capitalized hsub)

theorem headed_camel {text : List Char} (h : words text ≠ []) :
    Headed Char.isLower (camel text) := by
  obtain ⟨w, ws, hw⟩ := List.exists_cons_of_ne_nil h
  have hmem : w ∈ words text := hw ▸ List.mem_cons_self
  have hsub : ws ⊆ words text := hw ▸ List.subset_cons_self w ws
  rw [camel, hw]
  exact (headed_lower hmem).append (isAlphanum_of_mem_capitalized hsub)

namespace Namespace

theorem isWordBase_guarded (space : Namespace) (hguard : space.guard = ['_'])
    {isLetter : Char → Bool} {name : List Char} (h : Headed isLetter name) :
    IsWordBase isLetter (space.guarded name) := by
  obtain ⟨c, cs, rfl, hc, hcs⟩ := h
  rw [guarded]
  split_ifs with hd
  · rw [hguard]
    exact .digit hd hcs
  · exact .letter (hc.resolve_right hd) hcs

/-- A base that is no tag, from what its words make or from the fallback if there are none. -/
theorem headed_orFallback {space : Namespace} {isLetter : Char → Bool} {name : List Char}
    (hfallback : Headed isLetter space.fallback) (h : name ≠ [] → Headed isLetter name) :
    Headed isLetter (space.orFallback name) := by
  cases name with
  | nil => exact hfallback
  | cons c cs => exact h (List.cons_ne_nil c cs)

theorem isBase_className (raw : String) : className.IsBase (className.normalize raw).toList := by
  have hhead : Headed Char.isUpper (className.orFallback (pascal raw.toList)) := by
    have hfallback : Headed Char.isUpper className.fallback :=
      ⟨'N', _, rfl, by decide, List.all_eq_true.mp (by decide)⟩
    refine headed_orFallback hfallback fun hne => headed_pascal ?_
    rintro hw
    exact hne (by rw [pascal, hw]; rfl)
  have hbase := className.isWordBase_guarded rfl hhead
  rw [normalize, String.toList_ofList, ended]
  split_ifs with hending
  · exact ⟨hbase, List.isSuffixOf_iff_suffix.mp hending⟩
  · exact ⟨hbase.append (List.all_eq_true.mp (by decide)), List.suffix_append _ _⟩

theorem isBase_member (raw : String) : member.IsBase (member.normalize raw).toList := by
  have hhead : Headed Char.isLower (member.orFallback (camel raw.toList)) := by
    have hfallback : Headed Char.isLower member.fallback :=
      ⟨'p', _, rfl, by decide, List.all_eq_true.mp (by decide)⟩
    refine headed_orFallback hfallback fun hne => headed_camel ?_
    rintro hw
    exact hne (by rw [camel, hw])
  have hending : member.ending.isSuffixOf (member.guarded (member.orFallback (camel raw.toList))) =
      true := List.isSuffixOf_iff_suffix.mpr List.nil_suffix
  rw [normalize, String.toList_ofList, ended, cased, if_pos hending]
  exact member.isWordBase_guarded rfl hhead

theorem isBase_normalize (space : Namespace) (raw : String) :
    space.IsBase (space.normalize raw).toList := by
  cases space with
  | tag => exact isBase_tag raw
  | className => exact isBase_className raw
  | member => exact isBase_member raw

end Namespace

/-! ### Numbers -/

theorem isCounter_toDigits {n : Nat} (h : n ≠ 0) : IsCounter ('_' :: Nat.toDigits 10 n) := by
  have hdigits := isDigit_of_mem_toDigits (n := n)
  obtain ⟨c, ds, hcons, hc, hzero⟩ := exists_toDigits_eq_cons n
  rw [hcons, List.forall_mem_cons] at hdigits
  rw [hcons]
  exact .number hc (hzero h) hdigits.2

theorem Namespace.spells_numbered (space : Namespace) (raw : String) (k : Nat) :
    space.Spells (Table.numbered (space.normalize raw) k) := by
  have hbase := space.isBase_normalize raw
  cases k with
  | zero => exact ⟨_, [], (List.append_nil _).symm, hbase, .none⟩
  | succ k =>
    exact ⟨_, _, Table.toList_numbered_succ _ k, hbase, isCounter_toDigits (Nat.succ_ne_zero k)⟩

/-! ### What the names are used as -/

/-- The names with dashes that are no custom elements. -/
def takenElementNames : List String :=
  ["annotation-xml", "color-profile", "font-face", "font-face-src", "font-face-uri",
    "font-face-format", "font-face-name", "missing-glyph"]

/-- A name that a custom element can be defined under. -/
structure IsElementName (name : String) : Prop where
  letter : ∃ c cs, name.toList = c :: cs ∧ c.isLower = true
  chars : ∀ c ∈ name.toList, c.isLower = true ∨ c.isDigit = true ∨ c = '-' ∨ c = '_'
  dash : '-' ∈ name.toList
  free : name ∉ takenElementNames

/-- A name that can stand behind the dot of a selector. -/
structure IsClassSelector (name : String) : Prop where
  letter : ∃ c cs, name.toList = c :: cs ∧ c.isAlpha = true
  chars : ∀ c ∈ name.toList, c.isAlphanum = true ∨ c = '-' ∨ c = '_'

/-- A word of a script: letters, digits, underscores and dollar signs that do not start with a
digit. Reserved words are such words, and any such word can name a member of a class. -/
structure IsScriptWord (name : String) : Prop where
  start : ∃ c cs, name.toList = c :: cs ∧ c.isDigit = false
  chars : ∀ c ∈ name.toList, c.isAlphanum = true ∨ c = '_' ∨ c = '$'

/-- The words of a script that cannot name a class. -/
def reservedWords : List String :=
  ["arguments", "await", "break", "case", "catch", "class", "const", "continue", "debugger",
    "default", "delete", "do", "else", "enum", "eval", "export", "extends", "false", "finally",
    "for", "function", "if", "implements", "import", "in", "instanceof", "interface", "let", "new",
    "null", "package", "private", "protected", "public", "return", "static", "super", "switch",
    "this", "throw", "true", "try", "typeof", "var", "void", "while", "with", "yield"]

/-- What a name can be used as. -/
def Namespace.Admits : Namespace → String → Prop
  | tag, name => IsElementName name ∧ IsClassSelector name
  | className, name => IsScriptWord name ∧ name ∉ reservedWords
  | member, name => IsScriptWord name

theorem IsCounter.chars {counter : List Char} (h : IsCounter counter) :
    ∀ c ∈ counter, c.isDigit = true ∨ c = '_' := by
  cases h with
  | none => exact List.forall_mem_nil _
  | number hc _ hds =>
    rw [List.forall_mem_cons, List.forall_mem_cons]
    exact ⟨.inr rfl, .inl hc, fun d hd => .inl (hds d hd)⟩

theorem IsTagBase.chars {name : List Char} (h : IsTagBase name) :
    ∀ c ∈ name, c.isLower = true ∨ c.isDigit = true ∨ c = '-' := by
  obtain ⟨ws, -, hws, rfl⟩ := h.words
  intro c hc
  rw [← joinDashed_eq] at hc
  rcases mem_joinDashed hc with rfl | ⟨w, hw, hc⟩
  · exact .inr (.inr rfl)
  · exact (hws w hw).2 c hc |>.imp_right .inl

theorem isElementName_of_spells {name : String} (h : Namespace.tag.Spells name) :
    IsElementName name := by
  obtain ⟨base, counter, hname, hbase, hcounter⟩ := h
  have hbase : IsTagBase base := hbase
  have hending : "-element".toList <:+: name.toList := by
    rw [hname]
    exact hbase.ending.isInfix.trans (List.prefix_append base counter).isInfix
  constructor
  case letter =>
    obtain ⟨c, cs, rfl, hc⟩ := hbase.letter
    exact ⟨c, cs ++ counter, hname, hc⟩
  case chars =>
    rw [hname, List.forall_mem_append]
    constructor
    · exact fun c hc => (hbase.chars c hc).imp_right fun h => h.imp_right .inl
    · exact fun c hc => .inr ((hcounter.chars c hc).imp_right .inr)
  case dash => exact hending.subset (by decide)
  case free =>
    -- each of the names lacks a letter of the ending
    have hlack : ∀ taken ∈ takenElementNames,
        "-element".toList.any (fun c => c ∉ taken.toList) = true := by decide
    intro hmem
    obtain ⟨c, hc, hnot⟩ := List.any_eq_true.mp (hlack name hmem)
    exact of_decide_eq_true hnot (hending.subset hc)

theorem IsElementName.isClassSelector {name : String} (h : IsElementName name) :
    IsClassSelector name := by
  have halpha : ∀ c : Char, c.isLower = true → c.isAlpha = true := fun c hc => by
    have hunfold : c.isAlpha = (c.isUpper || c.isLower) := rfl
    rw [hunfold, hc, Bool.or_true]
  obtain ⟨c, cs, hname, hc⟩ := h.letter
  refine ⟨⟨c, cs, hname, halpha c hc⟩, fun d hd => ?_⟩
  rcases h.chars d hd with hd | hd | hd
  · exact .inl (by simp [Char.isAlphanum, halpha d hd])
  · exact .inl (by simp [Char.isAlphanum, hd])
  · exact .inr hd

/-- What a letter of a case has to be for its words to be words of scripts. -/
theorem isScriptWord_of_isWordBase {isLetter : Char → Bool}
    (hletter : ∀ c, isLetter c = true → c.isAlphanum = true ∧ c.isDigit = false) {name : String}
    {base counter : List Char} (hname : name.toList = base ++ counter)
    (hbase : IsWordBase isLetter base) (hcounter : IsCounter counter) : IsScriptWord name := by
  have hrest : ∀ c ∈ counter, c.isAlphanum = true ∨ c = '_' ∨ c = '$' := fun c hc =>
    (hcounter.chars c hc).imp (fun hd => by simp [Char.isAlphanum, hd]) .inl
  cases hbase with
  | @letter c cs hc hcs =>
    obtain ⟨halphanum, hdigit⟩ := hletter c hc
    refine ⟨⟨c, cs ++ counter, hname, hdigit⟩, ?_⟩
    rw [hname, List.forall_mem_append, List.forall_mem_cons]
    exact ⟨⟨.inl halphanum, fun d hd => .inl (hcs d hd)⟩, hrest⟩
  | @digit c cs hc hcs =>
    refine ⟨⟨'_', c :: cs ++ counter, hname, by decide⟩, ?_⟩
    rw [hname, List.forall_mem_append, List.forall_mem_cons, List.forall_mem_cons]
    have halphanum : c.isAlphanum = true := by simp [Char.isAlphanum, hc]
    exact ⟨⟨.inr (.inl rfl), .inl halphanum, fun d hd => .inl (hcs d hd)⟩, hrest⟩

theorem isAlphanum_of_isUpper {c : Char} (h : c.isUpper = true) :
    c.isAlphanum = true ∧ c.isDigit = false := by
  refine ⟨(isAlphanum_cases c).mpr (.inl h), ?_⟩
  rw [isUpper_iff] at h
  rw [← Bool.not_eq_true, isDigit_iff]
  omega

theorem isAlphanum_of_isLower {c : Char} (h : c.isLower = true) :
    c.isAlphanum = true ∧ c.isDigit = false := by
  refine ⟨(isAlphanum_cases c).mpr (.inr (.inl h)), ?_⟩
  rw [isLower_iff] at h
  rw [← Bool.not_eq_true, isDigit_iff]
  omega

theorem Namespace.Spells.admits {space : Namespace} {name : String} (h : space.Spells name) :
    space.Admits name := by
  cases space with
  | tag =>
    have helement := isElementName_of_spells h
    exact ⟨helement, helement.isClassSelector⟩
  | className =>
    obtain ⟨base, counter, hname, ⟨hbase, hending⟩, hcounter⟩ := h
    refine ⟨isScriptWord_of_isWordBase (fun c => isAlphanum_of_isUpper) hname hbase hcounter, ?_⟩
    have hcapital : ∀ word ∈ reservedWords, 'E' ∉ word.toList := by decide
    refine fun hmem => hcapital name hmem ?_
    rw [hname]
    exact List.mem_append_left _ (hending.subset (by decide))
  | member =>
    obtain ⟨base, counter, hname, hbase, hcounter⟩ := h
    exact isScriptWord_of_isWordBase (fun c => isAlphanum_of_isLower) hname hbase hcounter

namespace Table

/-- Whatever texts a table has been asked with, an assignment answers a name with the spelling of
its namespace, which can be used as what the namespace is for. -/
theorem answers_well_formed (cs : List Call) (r : Request) :
    ∃ name, (empty.run cs).answer r = name ∧
      (empty.run (cs ++ [.assign r])).lookup r.space r.entity = some name ∧
      r.space.Spells name ∧ r.space.Admits name := by
  have hlookup : (empty.run (cs ++ [.assign r])).lookup r.space r.entity =
      some ((empty.run cs).answer r) := by
    rw [run_append]
    exact lookup_assign_self _ r
  have hnames : (empty.run (cs ++ [.assign r])).Names Namespace.Spells := by
    rw [run_eq_assignAll]
    exact Names.assignAll Namespace.spells_numbered (List.forall_mem_nil _) _
  have hspells := hnames.of_lookup hlookup
  exact ⟨_, rfl, hlookup, hspells, hspells.admits⟩

/-- Digits at the start are guarded, and a member may be spelled like a reserved word. -/
example : Namespace.tag.normalize "2 Column" = "x-2-column-element" ∧
    Namespace.className.normalize "2col" = "_2colElement" ∧
    Namespace.member.normalize "Class" = "class" := by decide

end Table

end DesignComponents.Identifier
