import DesignComponents.Number.Shortest
import DesignComponents.Text.Visible

/-! What can be wrong with a JSON text. Each fault is a cause; its message and its class, text
that is malformed, text that stops too early or text that is well formed but holds the wrong
data, are functions of the cause. -/

namespace DesignComponents.Json

/-- What stood where something else was expected. -/
inductive Found where
  | null
  | bool (b : Bool)
  | integer (n : Int)
  | double (d : Double)
  | string (s : String)
  | sequence
  | map
  deriving DecidableEq, Repr

inductive Fault where
  | endInValue
  | endInObject
  | endInList
  | endInString
  | expectedValue
  | expectedIdent
  | expectedColon
  | expectedObjectComma
  | expectedListComma
  | keyNotString
  | trailingComma
  | trailingCharacters
  | invalidNumber
  | numberOutOfRange
  | invalidEscape
  | loneSurrogate
  | endOfHexEscape
  | controlCharacter
  | tooDeep
  | missingField (name : String)
  | duplicateField (name : String)
  | unknownVariant (found : String) (expected : List String)
  | wrongType (found : Found) (expected : String)
  | wrongLength (length : Nat) (expected : String)
  deriving DecidableEq, Repr

inductive FaultClass where
  | malformed
  | cutOff
  | wrongData
  deriving DecidableEq, Repr

namespace Fault

def kind : Fault → FaultClass
  | endInValue | endInObject | endInList | endInString => .cutOff
  | missingField _ | duplicateField _ | unknownVariant _ _ | wrongType _ _ | wrongLength _ _ =>
    .wrongData
  | _ => .malformed

end Fault

def inTicks (s : String) : String := "`" ++ s ++ "`"

def Found.message : Found → String
  | .null => "null"
  | .bool b => "boolean " ++ inTicks (if b then "true" else "false")
  | .integer n => "integer " ++ inTicks (toString n)
  | .double d => "floating point " ++ inTicks d.toText
  | .string s => "string " ++ Text.showQuoted s
  | .sequence => "sequence"
  | .map => "map"

/-- The names a value may have, as a phrase. -/
def oneOf : List String → String
  | [] => "there are no variants"
  | [a] => inTicks a
  | [a, b] => inTicks a ++ " or " ++ inTicks b
  | names => "one of " ++ String.intercalate ", " (names.map inTicks)

def Fault.message : Fault → String
  | endInValue => "EOF while parsing a value"
  | endInObject => "EOF while parsing an object"
  | endInList => "EOF while parsing a list"
  | endInString => "EOF while parsing a string"
  | expectedValue => "expected value"
  | expectedIdent => "expected ident"
  | expectedColon => "expected `:`"
  | expectedObjectComma => "expected `,` or `\x7d`"
  | expectedListComma => "expected `,` or `]`"
  | keyNotString => "key must be a string"
  | trailingComma => "trailing comma"
  | trailingCharacters => "trailing characters"
  | invalidNumber => "invalid number"
  | numberOutOfRange => "number out of range"
  | invalidEscape => "invalid escape"
  | loneSurrogate => "lone leading surrogate in hex escape"
  | endOfHexEscape => "unexpected end of hex escape"
  | controlCharacter => "control character (\\u0000-\\u001F) found while parsing a string"
  | tooDeep => "recursion limit exceeded"
  | missingField name => "missing field " ++ inTicks name
  | duplicateField name => "duplicate field " ++ inTicks name
  | unknownVariant found expected =>
    "unknown variant " ++ inTicks found ++ ", expected " ++ oneOf expected
  | wrongType found expected => "invalid type: " ++ found.message ++ ", expected " ++ expected
  | wrongLength length expected =>
    "invalid length " ++ toString length ++ ", expected " ++ expected

end DesignComponents.Json
