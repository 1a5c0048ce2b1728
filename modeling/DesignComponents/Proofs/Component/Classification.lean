import DesignComponents.Component.Binding
import Mathlib.Data.List.Basic
import Mathlib.Tactic.Common

/-! What a text is bound to, read off its segments and the fields of its node. Exactly one binding
fits a text, and it is the one that the text is classified by. -/

namespace DesignComponents

/-- The body of a placeholder. -/
def Text.Segment.body? : Text.Segment → Option String
  | literal _ => none
  | placeholder body => some body

namespace Binding

/-- What the text of a node is bound to. Placeholders come first, then a property that the text
refers to, then a bound variable whose name is known. -/
inductive Fits (s : Snapshot) (n : Node) (text : String) : Binding → Prop
  | placeholders (hp : ∃ body, .placeholder body ∈ Text.segments text) :
      Fits s n text (.placeholders (Text.segments text))
  | property {key : String} (hp : ∀ body, .placeholder body ∉ Text.segments text)
      (hr : n.textReference = some key) : Fits s n text (.property key)
  | variable {id : VariableId} {label : String}
      (hp : ∀ body, .placeholder body ∉ Text.segments text) (hr : n.textReference = none)
      (hv : n.boundVariable = some id) (hs : s.variableName? id = some label) :
      Fits s n text (.variable id label)
  | literal (hp : ∀ body, .placeholder body ∉ Text.segments text) (hr : n.textReference = none)
      (hv : ∀ id, n.boundVariable = some id → s.variableName? id = none) :
      Fits s n text (.literal text)

theorem any_isPlaceholder_iff {segments : List Text.Segment} :
    segments.any isPlaceholder = true ↔ ∃ body, .placeholder body ∈ segments := by
  rw [List.any_eq_true]
  constructor
  · rintro ⟨segment, hm, hp⟩
    cases segment with
    | literal text => cases hp
    | placeholder body => exact ⟨body, hm⟩
  · rintro ⟨body, hm⟩
    exact ⟨_, hm, rfl⟩

variable {s : Snapshot} {n : Node} {text : String} {b : Binding}

theorem named?_eq_some_iff {id : VariableId} {label : String} :
    named? s n = some (id, label) ↔
      n.boundVariable = some id ∧ s.variableName? id = some label := by
  simp only [named?, bind, pure, Option.bind_eq_some_iff, Option.some.injEq, Prod.mk.injEq]
  constructor
  · rintro ⟨_, hid, _, hlabel, rfl, rfl⟩
    exact ⟨hid, hlabel⟩
  · rintro ⟨hid, hlabel⟩
    exact ⟨id, hid, label, hlabel, rfl, rfl⟩

theorem named?_eq_none_iff :
    named? s n = none ↔ ∀ id, n.boundVariable = some id → s.variableName? id = none := by
  rw [Option.eq_none_iff_forall_ne_some]
  constructor
  · intro h id hid
    by_contra hne
    obtain ⟨label, hlabel⟩ := Option.ne_none_iff_exists'.mp hne
    exact h (id, label) (named?_eq_some_iff.mpr ⟨hid, hlabel⟩)
  · rintro h ⟨id, label⟩ hn
    obtain ⟨hid, hlabel⟩ := named?_eq_some_iff.mp hn
    simp [h id hid] at hlabel

/-- Some binding fits every text. -/
theorem exists_fits (s : Snapshot) (n : Node) (text : String) : ∃ b, Fits s n text b := by
  by_cases hp : ∃ body, .placeholder body ∈ Text.segments text
  · exact ⟨_, .placeholders hp⟩
  · have hp := not_exists.mp hp
    cases hr : n.textReference with
    | some key => exact ⟨_, .property hp hr⟩
    | none =>
      cases hn : named? s n with
      | some named =>
        obtain ⟨hv, hs⟩ := named?_eq_some_iff.mp hn
        exact ⟨_, .variable hp hr hv hs⟩
      | none => exact ⟨_, .literal hp hr (named?_eq_none_iff.mp hn)⟩

theorem Fits.classify_eq (h : Fits s n text b) (ht : n.characters = some text) :
    classify s n = b := by
  cases h with
  | placeholders hp =>
    have hany := any_isPlaceholder_iff.mpr hp
    simp only [classify, ht, Option.getD_some, hany, if_true]
  | property hp hr =>
    have hany := any_isPlaceholder_iff.not.mpr (not_exists.mpr hp)
    simp only [classify, ht, Option.getD_some, if_neg hany, hr]
  | «variable» hp hr hv hs =>
    have hany := any_isPlaceholder_iff.not.mpr (not_exists.mpr hp)
    simp only [classify, ht, Option.getD_some, if_neg hany, hr, named?_eq_some_iff.mpr ⟨hv, hs⟩]
  | literal hp hr hv =>
    have hany := any_isPlaceholder_iff.not.mpr (not_exists.mpr hp)
    simp only [classify, ht, Option.getD_some, if_neg hany, hr, named?_eq_none_iff.mpr hv]

theorem fits_classify (ht : n.characters = some text) : Fits s n text (classify s n) := by
  obtain ⟨b, hb⟩ := exists_fits s n text
  rwa [hb.classify_eq ht]

end Binding

end DesignComponents
