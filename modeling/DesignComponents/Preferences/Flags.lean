import DesignComponents.Preferences.Basic

/-! Preferences given as flags of a command. Every flag replaces one field; given variants replace
the whole list of variants. -/

namespace DesignComponents

structure Flags where
  mode : Option Mode
  stylePolicy : Option StylePolicy
  textElement : Option TextElement
  variants : List Variant
  deriving DecidableEq, Repr

namespace Flags

def empty : Flags := ⟨none, none, none, []⟩

/-- The preferences with the fields that have a flag replaced. -/
def apply (f : Flags) (p : Preferences) : Preferences where
  mode := f.mode.getD p.mode
  stylePolicy := f.stylePolicy.or p.stylePolicy
  textElement := f.textElement.getD p.textElement
  variants := if f.variants.isEmpty then p.variants else f.variants

theorem apply_empty (p : Preferences) : empty.apply p = p := rfl

end Flags

end DesignComponents
