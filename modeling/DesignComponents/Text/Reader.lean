/-! Readers that take characters off the front of a text or fail. Where one reader fails, the other
side of `<|>` starts at the same place. -/

namespace DesignComponents.Text

abbrev Reader := StateT (List Char) Option

namespace Reader

/-- A character that passes a test. -/
def char (test : Char → Bool) : Reader Char
  | c :: cs => if test c then some (c, cs) else none
  | [] => none

def exactly (text : String) : Reader Unit := fun cs =>
  if text.toList.isPrefixOf cs then some ((), cs.drop text.length) else none

/-- Whether the next character is the given one, which is then taken. -/
def accept (c : Char) : Reader Bool
  | d :: cs => some (if d = c then (true, cs) else (false, d :: cs))
  | [] => some (false, [])

end Reader

end DesignComponents.Text
