import DesignComponents.Preferences.Flags

/-! Configuration files. A file may set any of the preferences; what it leaves open keeps its
standard value, and flags win over what it sets. -/

namespace DesignComponents

structure Configuration where
  mode : Option Mode
  stylePolicy : Option StylePolicy
  textElement : Option TextElement
  variants : Option (List Variant)
  deriving DecidableEq, Repr

namespace Configuration

def empty : Configuration := ⟨none, none, none, none⟩

/-- The preferences that a file stands for. -/
def preferences (c : Configuration) : Preferences where
  mode := c.mode.getD Preferences.standard.mode
  stylePolicy := c.stylePolicy
  textElement := c.textElement.getD Preferences.standard.textElement
  variants := c.variants.getD Preferences.standard.variants

theorem preferences_empty : empty.preferences = Preferences.standard := rfl

end Configuration

end DesignComponents
