import DesignComponents.Command.Run
import DesignComponents.Preferences.Reader
import DesignComponents.Proofs.Json.Following

/-! Configuration files and preferences. An object that holds preferences is a configuration that
stands for the same preferences, and flags replace those of their fields that they give. -/

namespace DesignComponents

open Json (Reader)
open Json.Reader (Follows Refuses)

/-! ### Flags -/

/-- Preferences in which what a flag gives is as the flag says, and all else is as it was. -/
structure Flags.Overrides (f : Flags) (p q : Preferences) : Prop where
  mode : ∀ m, f.mode = some m → q.mode = m
  mode_kept : f.mode = none → q.mode = p.mode
  stylePolicy : ∀ s, f.stylePolicy = some s → q.stylePolicy = some s
  stylePolicy_kept : f.stylePolicy = none → q.stylePolicy = p.stylePolicy
  textElement : ∀ e, f.textElement = some e → q.textElement = e
  textElement_kept : f.textElement = none → q.textElement = p.textElement
  /-- One variant is enough to replace the whole list. -/
  variants : f.variants ≠ [] → q.variants = f.variants
  variants_kept : f.variants = [] → q.variants = p.variants

theorem Flags.overrides_apply (f : Flags) (p : Preferences) : f.Overrides p (f.apply p) where
  mode m h := by simp [apply, h]
  mode_kept h := by simp [apply, h]
  stylePolicy s h := by simp [apply, h]
  stylePolicy_kept h := by simp [apply, h]
  textElement e h := by simp [apply, h]
  textElement_kept h := by simp [apply, h]
  variants h := by simp [apply, h]
  variants_kept h := by simp [apply, h]

/-- What the flags and the preferences before them say leaves nothing open. -/
theorem Flags.Overrides.unique {f : Flags} {p q q' : Preferences} (h : f.Overrides p q)
    (h' : f.Overrides p q') : q = q' := by
  have hmode : q.mode = q'.mode := by
    cases hf : f.mode with
    | none => rw [h.mode_kept hf, h'.mode_kept hf]
    | some m => rw [h.mode m hf, h'.mode m hf]
  have hpolicy : q.stylePolicy = q'.stylePolicy := by
    cases hf : f.stylePolicy with
    | none => rw [h.stylePolicy_kept hf, h'.stylePolicy_kept hf]
    | some s => rw [h.stylePolicy s hf, h'.stylePolicy s hf]
  have helement : q.textElement = q'.textElement := by
    cases hf : f.textElement with
    | none => rw [h.textElement_kept hf, h'.textElement_kept hf]
    | some e => rw [h.textElement e hf, h'.textElement e hf]
  have hvariants : q.variants = q'.variants := by
    by_cases hf : f.variants = []
    · rw [h.variants_kept hf, h'.variants_kept hf]
    · rw [h.variants hf, h'.variants hf]
  cases q
  cases q'
  simp_all

theorem Flags.overrides_iff (f : Flags) (p q : Preferences) :
    f.Overrides p q ↔ q = f.apply p :=
  ⟨fun h => h.unique (f.overrides_apply p), fun h => h ▸ f.overrides_apply p⟩

/-! ### Files -/

namespace Configuration

/-- The configuration that has been read when some preferences have been. -/
def Partial.ofPreferences (s : Preferences.Partial) : Partial :=
  ⟨s.mode.map some, s.stylePolicy, s.textElement.map some, s.variants.map some⟩

theorem preferences_finish_ofPreferences (s : Preferences.Partial) :
    (Partial.ofPreferences s).finish.preferences = s.finish := by
  obtain ⟨mode, stylePolicy, textElement, variants⟩ := s
  cases mode <;> cases stylePolicy <;> cases textElement <;> cases variants <;> rfl

theorem follows_choice {α : Type} (depth : Nat) (names : List (String × α)) :
    Follows some (Reader.choice depth names) (Reader.optional (Reader.choice depth names)) :=
  Reader.follows_optional (Reader.refuses_fail .expectedValue)

theorem follows_list {α : Type} (depth : Nat) (read : Reader α) :
    Follows some (Reader.list depth read) (Reader.optional (Reader.list depth read)) :=
  Reader.follows_optional (Reader.refuses_mismatch "a sequence")

/-- The fields of a configuration follow those of preferences. -/
theorem follows_record (depth : Nat) :
    List.Forall₂ (Json.Field.Follows Partial.ofPreferences) (Preferences.record depth).fields
      (record depth).fields := by
  -- a missing policy is read alike; the other fields may be missing in a configuration only
  refine .cons ⟨rfl, rfl, fun s => ?_, fun s => ?_⟩ (.cons ⟨rfl, rfl, fun s => ?_, fun s => ?_⟩
    (.cons ⟨rfl, rfl, fun s => ?_, fun s => ?_⟩ (.cons ⟨rfl, rfl, fun s => ?_, fun s => ?_⟩ .nil)))
  · exact Option.isSome_map
  · exact (follows_choice depth _).bind fun a => .pure _ _
  · rfl
  · exact .bind_left _ fun a => .pure _ _
  · exact Option.isSome_map
  · exact (follows_choice depth _).bind fun a => .pure _ _
  · exact Option.isSome_map
  · exact (follows_list depth _).bind fun a => .pure _ _

/-- An object that holds preferences is a configuration for them. -/
theorem exists_parse_eq_ok {text : String} (hobject : Json.Record.IsObject text.toList)
    {p : Preferences} (h : Preferences.parse text = .ok p) :
    ∃ c, parse text = .ok c ∧ c.preferences = p := by
  obtain ⟨rest, hread, hrest⟩ := Reader.ofText_eq_ok_iff.mp h
  obtain ⟨s, hs, rfl⟩ := Reader.map_eq_ok_iff.mp hread
  have hs' := Json.Record.read_of_follows follows_record Json.depthLimit hobject hs
  have hparse : parse text = .ok (Partial.ofPreferences s).finish :=
    Reader.ofText_eq_ok_iff.mpr ⟨rest, Reader.map_eq_ok_iff.mpr ⟨_, hs', rfl⟩, hrest⟩
  exact ⟨_, hparse, preferences_finish_ofPreferences s⟩

/-- Flags replace what they give in the preferences that a file holds, and nothing else. -/
theorem overrides_of_parse_preferences {text : String} {p : Preferences}
    (hobject : Json.Record.IsObject text.toList) (h : Preferences.parse text = .ok p) :
    ∃ c, parse text = .ok c ∧
      (∀ path : String, path.endsWith ".json" →
        Command.configurationOf path (.ok text) = .ok c) ∧
      ∀ (flags : Flags) (q : Preferences),
        flags.Overrides p q ↔ q = flags.apply c.preferences := by
  obtain ⟨c, hc, rfl⟩ := exists_parse_eq_ok hobject h
  refine ⟨c, hc, fun path hpath => ?_, fun flags => flags.overrides_iff c.preferences⟩
  show (if path.endsWith ".json" = true then (parse text).mapError _ else _) = _
  rw [if_pos hpath, hc]
  rfl

/-- An object with a field of another name, a mode as a key, a missing policy and no variants. -/
def sparse : String :=
  " \x7b\"more\": [1], \"mode\": \x7b\"multi\": null\x7d, \"style_policy\": null, \"variants\": []\x7d"

theorem sparse_overrides :
    Json.Record.IsObject sparse.toList ∧
      Preferences.parse sparse = .ok ⟨.multi, none, .block, []⟩ ∧
      ∃ c, parse sparse = .ok c ∧ Command.configurationOf "site.json" (.ok sparse) = .ok c ∧
        Flags.apply ⟨some .single, none, none, [.javascript]⟩ c.preferences =
          ⟨.single, none, .block, [.javascript]⟩ := by
  have hobject : Json.Record.IsObject sparse.toList := by decide +kernel
  have hparse : Preferences.parse sparse = .ok ⟨.multi, none, .block, []⟩ := by
    decide +kernel
  obtain ⟨c, hc, hfile, hflags⟩ := overrides_of_parse_preferences hobject hparse
  have hoverrides : Flags.Overrides ⟨some .single, none, none, [.javascript]⟩
      ⟨.multi, none, .block, []⟩ ⟨.single, none, .block, [.javascript]⟩ :=
    (Flags.overrides_iff _ _ _).mpr rfl
  exact ⟨hobject, hparse, c, hc, hfile "site.json" (by decide +kernel),
    ((hflags _ _).mp hoverrides).symm⟩

end Configuration

end DesignComponents
