import DesignComponents.Json.Reader

/-! The reader of any JSON value. Objects keep the last of several fields with one key. -/

namespace DesignComponents.Json.Reader

/-- A value whose entries, if it has any, are read as given. -/
def valueWith (depth : Nat) (entry : Reader Json) : Reader Json := do
  match ← peek with
  | some 'n' => word "ull"; pure .null
  | some 't' => word "rue"; pure (.bool true)
  | some 'f' => word "alse"; pure (.bool false)
  | some '"' => .string <$> stringHere
  | some '[' => .array <$> listHere depth entry
  | some '{' =>
    let step (_ : Nat) (key : String) (acc : List (String × Json)) :
        Reader (List (String × Json)) := do
      colon
      let v ← entry
      pure (insertSorted key v acc)
    .object <$> objectHere depth step []
  | some c => if c = '-' ∨ c.isDigit then .number <$> numberHere else fail .expectedValue
  | none => fail .endInValue

def value : Nat → Reader Json
  | 0 => valueWith 0 (fail .tooDeep)
  | depth + 1 => valueWith (depth + 1) (value depth)

end DesignComponents.Json.Reader

namespace DesignComponents.Json

/-- Reads a value that fills the text. -/
def parse (text : String) : Except Fault Json :=
  Reader.ofText (Reader.value depthLimit) text

end DesignComponents.Json
