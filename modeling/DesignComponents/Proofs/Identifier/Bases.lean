import DesignComponents.Proofs.Identifier.Search
import Mathlib.Data.List.TakeWhile
import Mathlib.Tactic.Common

/-! The shape of bases. Whatever text a base comes from, it is not empty and has no underscore
behind its first character. So the number behind a base can be told from the base, and names
with different bases or different numbers are different. -/

namespace DesignComponents.Identifier

/-! ### Words -/

theorem isAlphanum_of_mem_chunks {text w : List Char} {c : Char} (hw : w ∈ chunks text)
    (hc : c ∈ w) : c.isAlphanum = true := by
  fun_induction chunks text generalizing w with
  | case1 => simp at hw
  | case2 d hd =>
    rw [List.mem_singleton] at hw
    subst hw
    exact List.mem_singleton.mp hc ▸ hd
  | case3 d hd => simp at hw
  | case4 d e cs rest hd v vs hrest =>
    -- the character goes in front of the first chunk of the rest
    rename_i ih
    have hchunks : chunks (e :: cs) = v :: vs := hrest
    rw [hchunks] at ih
    rcases List.mem_cons.mp hw with rfl | hw
    · rcases List.mem_cons.mp hc with rfl | hc
      · exact hd
      · exact ih List.mem_cons_self hc
    · exact ih (List.mem_cons_of_mem v hw) hc
  | case5 d e cs rest hd =>
    rename_i ih
    rcases List.mem_cons.mp hw with rfl | hw
    · exact List.mem_singleton.mp hc ▸ hd
    · exact ih hw hc
  | case6 d e cs rest hd =>
    rename_i ih
    exact ih hw hc

theorem mem_of_mem_cut {text w : List Char} {c : Char} (hw : w ∈ cut text) (hc : c ∈ w) :
    c ∈ text := by
  fun_induction cut text generalizing w with
  | case1 => simp at hw
  | case2 d =>
    rw [List.mem_singleton] at hw
    exact hw ▸ hc
  | case3 d e cs v vs hcut hs ih =>
    rw [hcut] at ih
    rcases List.mem_cons.mp hw with rfl | hw
    · rcases List.mem_cons.mp hc with rfl | hc
      · exact List.mem_cons_self
      · exact List.mem_cons_of_mem d (ih List.mem_cons_self hc)
    · exact List.mem_cons_of_mem d (ih (List.mem_cons_of_mem v hw) hc)
  | case4 d e cs hcut ih =>
    rcases List.mem_cons.mp hw with rfl | hw
    · exact List.mem_singleton.mp hc ▸ List.mem_cons_self
    · exact List.mem_cons_of_mem d (ih hw hc)

theorem isAlphanum_of_mem_words {text w : List Char} (hw : w ∈ words text) {c : Char}
    (hc : c ∈ w) : c.isAlphanum = true := by
  obtain ⟨chunk, hchunk, hw⟩ := List.mem_flatMap.mp hw
  exact isAlphanum_of_mem_chunks hchunk (mem_of_mem_cut hw hc)

/-! ### Cases -/

theorem isUpper_iff (c : Char) : c.isUpper = true ↔ 65 ≤ c.val.toNat ∧ c.val.toNat ≤ 90 := by
  have hunfold : c.isUpper = decide ('A'.val ≤ c.val ∧ c.val ≤ 'Z'.val) := rfl
  simp [hunfold, UInt32.le_iff_toNat_le]

theorem isLower_iff (c : Char) : c.isLower = true ↔ 97 ≤ c.val.toNat ∧ c.val.toNat ≤ 122 := by
  have hunfold : c.isLower = (decide ('a'.val ≤ c.val) && decide (c.val ≤ 'z'.val)) := rfl
  simp [hunfold, UInt32.le_iff_toNat_le]

theorem isDigit_iff (c : Char) : c.isDigit = true ↔ 48 ≤ c.val.toNat ∧ c.val.toNat ≤ 57 := by
  have hunfold : c.isDigit = (decide ('0'.val ≤ c.val) && decide (c.val ≤ '9'.val)) := rfl
  simp [hunfold, UInt32.le_iff_toNat_le]

theorem isAlphanum_cases (c : Char) :
    c.isAlphanum = true ↔ c.isUpper = true ∨ c.isLower = true ∨ c.isDigit = true := by
  have hunfold : c.isAlphanum = (c.isUpper || c.isLower || c.isDigit) := rfl
  rw [hunfold, Bool.or_eq_true, Bool.or_eq_true, or_assoc]

theorem isAlphanum_iff (c : Char) :
    c.isAlphanum = true ↔ (65 ≤ c.val.toNat ∧ c.val.toNat ≤ 90) ∨
      (97 ≤ c.val.toNat ∧ c.val.toNat ≤ 122) ∨ (48 ≤ c.val.toNat ∧ c.val.toNat ≤ 57) := by
  rw [isAlphanum_cases, isUpper_iff, isLower_iff, isDigit_iff]

theorem isAlphanum_toLower {c : Char} (h : c.isAlphanum = true) : c.toLower.isAlphanum = true := by
  unfold Char.toLower
  split_ifs with hu
  · simp [isAlphanum_iff, UInt32.le_iff_toNat_le] at hu ⊢
    omega
  · exact h

theorem isAlphanum_toUpper {c : Char} (h : c.isAlphanum = true) : c.toUpper.isAlphanum = true := by
  unfold Char.toUpper
  split_ifs with hl
  · simp [isAlphanum_iff, UInt32.le_iff_toNat_le] at hl ⊢
    omega
  · exact h

theorem isAlphanum_of_mem_lower {w : List Char} (h : ∀ c ∈ w, c.isAlphanum = true) :
    ∀ c ∈ lower w, c.isAlphanum = true := by
  intro c hc
  obtain ⟨d, hd, rfl⟩ := List.mem_map.mp hc
  exact isAlphanum_toLower (h d hd)

theorem isAlphanum_of_mem_capitalize {w : List Char} (h : ∀ c ∈ w, c.isAlphanum = true) :
    ∀ c ∈ capitalize w, c.isAlphanum = true := by
  cases w with
  | nil => exact h
  | cons d w =>
    rw [List.forall_mem_cons] at h
    rw [capitalize, List.forall_mem_cons]
    exact ⟨isAlphanum_toUpper h.1, isAlphanum_of_mem_lower h.2⟩

theorem isAlphanum_of_mem_capitalized {text : List Char} {ws : List (List Char)}
    (hws : ws ⊆ words text) : ∀ c ∈ ws.flatMap capitalize, c.isAlphanum = true := by
  intro c hc
  obtain ⟨w, hw, hc⟩ := List.mem_flatMap.mp hc
  exact isAlphanum_of_mem_capitalize (fun d => isAlphanum_of_mem_words (hws hw)) c hc

theorem mem_joinDashed {ws : List (List Char)} {c : Char} (h : c ∈ joinDashed ws) :
    c = '-' ∨ ∃ w ∈ ws, c ∈ w := by
  fun_induction joinDashed ws with
  | case1 => cases h
  | case2 w => exact .inr ⟨w, List.mem_cons_self, h⟩
  | case3 w ws hne ih =>
    rw [List.mem_append, List.mem_cons] at h
    rcases h with h | rfl | h
    · exact .inr ⟨w, List.mem_cons_self, h⟩
    · exact .inl rfl
    · exact (ih h).imp_right fun ⟨v, hv, hc⟩ => ⟨v, List.mem_cons_of_mem w hv, hc⟩

/-- Words in any case are made of letters and digits, and dashes join them. -/
theorem isAlphanum_or_dash_of_mem_cased {space : Namespace} {text : List Char} {c : Char}
    (h : c ∈ space.cased text) : c.isAlphanum = true ∨ c = '-' := by
  have hsmall : ∀ w ∈ words text, c ∈ lower w → c.isAlphanum = true := fun w hw hc =>
    isAlphanum_of_mem_lower (fun d => isAlphanum_of_mem_words hw) c hc
  cases space with
  | tag =>
    rcases mem_joinDashed h with rfl | ⟨w, hw, hc⟩
    · exact .inr rfl
    · obtain ⟨v, hv, rfl⟩ := List.mem_map.mp hw
      exact .inl (hsmall v hv hc)
  | className => exact .inl (isAlphanum_of_mem_capitalized (List.Subset.refl _) c h)
  | member =>
    refine .inl ?_
    change c ∈ camel text at h
    unfold camel at h
    split at h
    · cases h
    · next w ws hws =>
      have hsub : ws ⊆ words text := hws ▸ List.subset_cons_self w ws
      rw [hws] at hsmall
      rcases List.mem_append.mp h with h | h
      · exact hsmall w List.mem_cons_self h
      · exact isAlphanum_of_mem_capitalized hsub c h

theorem underscore_notMem_cased (space : Namespace) (text : List Char) :
    '_' ∉ space.cased text := by
  intro h
  rcases isAlphanum_or_dash_of_mem_cased h with h | h
  · exact absurd h (by decide)
  · exact absurd h (by decide)

/-! ### Bases -/

/-- What a number can be put behind: a text that is not empty and has no underscore behind its
first character. -/
def Plain (name : List Char) : Prop := name ≠ [] ∧ '_' ∉ name.tail

theorem plain_of_notMem {name : List Char} (hne : name ≠ []) (h : '_' ∉ name) : Plain name :=
  ⟨hne, fun hm => h (List.mem_of_mem_tail hm)⟩

namespace Namespace

theorem plain_guarded {space : Namespace} {name : List Char} (hne : name ≠ [])
    (h : '_' ∉ name) : Plain (space.guarded name) := by
  cases name with
  | nil => exact absurd rfl hne
  | cons c cs =>
    rw [guarded]
    split_ifs
    · cases space with
      | tag => exact plain_of_notMem (by simp [guard]) (by simpa [guard] using h)
      | className => exact ⟨by simp [guard], by simpa [guard] using h⟩
      | member => exact ⟨by simp [guard], by simpa [guard] using h⟩
    · exact plain_of_notMem hne h

theorem plain_ended {space : Namespace} {name : List Char} (h : Plain name) :
    Plain (space.ended name) := by
  rw [ended]
  split_ifs
  · exact h
  · have hending : '_' ∉ space.ending := by cases space <;> decide
    refine ⟨fun he => h.1 (List.append_eq_nil_iff.mp he).1, ?_⟩
    rw [List.tail_append_of_ne_nil h.1, List.mem_append, not_or]
    exact ⟨h.2, hending⟩

theorem plain_normalize (space : Namespace) (raw : String) :
    Plain (space.normalize raw).toList := by
  have hcased := underscore_notMem_cased space raw.toList
  rw [normalize, String.toList_ofList]
  refine plain_ended ?_
  cases hc : space.cased raw.toList with
  | nil => exact plain_guarded (by cases space <;> decide) (by cases space <;> decide)
  | cons c cs =>
    rw [hc] at hcased
    exact plain_guarded (List.cons_ne_nil c cs) hcased

theorem normalize_ne_empty (space : Namespace) (raw : String) : space.normalize raw ≠ "" := by
  intro he
  exact (space.plain_normalize raw).1 (by rw [he]; rfl)

end Namespace

/-! ### Numbers behind bases -/

/-- The text in front of the first underscore behind the first character. -/
def stem : List Char → List Char
  | [] => []
  | c :: cs => c :: cs.takeWhile (· ≠ '_')

theorem Plain.of_mem_tail {c : Char} {cs : List Char} (h : Plain (c :: cs)) :
    ∀ d ∈ cs, decide (d ≠ '_') = true := by
  intro d hd
  have hne : d ≠ '_' := fun he => h.2 (he ▸ hd)
  simpa using hne

theorem Plain.stem_eq {name : List Char} (h : Plain name) : stem name = name := by
  cases name with
  | nil => exact absurd rfl h.1
  | cons c cs => rw [stem, List.takeWhile_eq_self_iff.mpr h.of_mem_tail]

theorem Plain.stem_append {name : List Char} (h : Plain name) (rest : List Char) :
    stem (name ++ '_' :: rest) = name := by
  cases name with
  | nil => exact absurd rfl h.1
  | cons c cs =>
    rw [List.cons_append, stem, List.takeWhile_append_of_pos h.of_mem_tail]
    simp

namespace Table

theorem stem_numbered {base : String} (h : Plain base.toList) (k : Nat) :
    stem (numbered base k).toList = base.toList := by
  cases k with
  | zero => exact h.stem_eq
  | succ k => rw [toList_numbered_succ, h.stem_append]

theorem numbered_inj {base base' : String} {k k' : Nat} (h : Plain base.toList)
    (h' : Plain base'.toList) : numbered base k = numbered base' k' ↔ base = base' ∧ k = k' := by
  constructor
  · intro he
    have hbase : base = base' := by
      rw [← String.toList_inj, ← stem_numbered h k, he, stem_numbered h']
    subst hbase
    exact ⟨rfl, numbered_injective base he⟩
  · rintro ⟨rfl, rfl⟩
    rfl

theorem numbered_ne_empty {base : String} (h : base ≠ "") (k : Nat) : numbered base k ≠ "" := by
  intro he
  have hl := congrArg String.toList he
  cases k with
  | zero => exact h he
  | succ k => simp [toList_numbered_succ] at hl

end Table

end DesignComponents.Identifier
