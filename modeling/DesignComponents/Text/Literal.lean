/-! Text inside literals of generated source. A template literal ends at a grave accent and
substitutes after a dollar sign with an opening brace; a quoted literal ends at an apostrophe
and holds no line break. Escaping puts a backslash before what the literal would act on. -/

namespace DesignComponents.Text

/-- Escapes a text for the inside of a template literal. -/
def escapeTemplate : List Char → List Char
  | [] => []
  | '\\' :: cs => '\\' :: '\\' :: escapeTemplate cs
  | '\x60' :: cs => '\\' :: '\x60' :: escapeTemplate cs
  | '$' :: '{' :: cs => '\\' :: '$' :: '{' :: escapeTemplate cs
  | c :: cs => c :: escapeTemplate cs

def escapeQuotedChar : Char → List Char
  | '\\' => ['\\', '\\']
  | '\'' => ['\\', '\'']
  | '\n' => ['\\', 'n']
  | '\r' => ['\\', 'r']
  | c => [c]

/-- The quoted literal of a text. -/
def quote (text : String) : String :=
  String.ofList ('\'' :: text.toList.flatMap escapeQuotedChar ++ ['\''])

def templateText (text : String) : String :=
  String.ofList (escapeTemplate text.toList)

end DesignComponents.Text
