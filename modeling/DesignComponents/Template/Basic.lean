import DesignComponents.Template.Value
import DesignComponents.Text.Lines

/-! Templates and what they print. A template is text with values put in and with calls of helpers.
A helper may print a shifted text, or its body for a value that counts as true, or its body
once for each item of a value, where paths then start from the item. -/

namespace DesignComponents.Template

/-- An argument of a call: a path to a value, or a value. -/
inductive Argument where
  | path (names : List String)
  | value (v : Json)

inductive Helper where
  /-- Prints its body if the value counts as true, or if it does not. -/
  | condition (wanted : Bool)
  | forEach
  /-- Prints its body with the value as the item. -/
  | within
  /-- Prints its body as it is. -/
  | plain
  /-- Prints nothing. -/
  | silent
  /-- Prints a text shifted to the right. -/
  | indent
  /-- A word kept for calculations, none of which can be printed. -/
  | reserved
  deriving DecidableEq, Repr

namespace Helper

def names : List (String × Helper) :=
  [("if", condition true), ("unless", condition false), ("each", forEach), ("with", within),
    ("raw", plain), ("log", silent), ("indent", indent), ("lookup", reserved), ("len", reserved),
    ("eq", reserved), ("ne", reserved), ("gt", reserved), ("gte", reserved), ("lt", reserved),
    ("lte", reserved), ("and", reserved), ("or", reserved), ("not", reserved)]

def named? (name : String) : Option Helper :=
  (names.find? fun n => n.1 = name).map Prod.snd

end Helper

inductive Part where
  | text (s : String)
  | value (path : List String)
  /-- A helper called with arguments, a body, and another body for the other case. -/
  | call (helper : String) (args : List Argument) (body otherwise : List Part)

def Argument.eval (item : Json) : Argument → Option Json
  | .path names => follow item names
  | .value v => some v

/-- The number of places a value asks for; only whole numbers that are not negative count. -/
def placesOf (v : Option Json) : Nat := (v.bind Json.nat?).getD 4

/-- The text that is the first value, shifted by as many places as the second one asks for. -/
def shifted (args : List Json) : String :=
  Text.indent (placesOf args[1]?) ((args[0]?.bind Json.string?).getD "")

mutual

/-- What a part prints for an item. There is nothing for a name that is no helper, for a helper
without the value it needs, and for a path that does not fit the data. -/
def render (item : Json) : Part → Option String
  | .text s => some s
  | .value path => (follow item path).map shown
  | .call name args body otherwise => do
    let helper ← Helper.named? name
    let args ← args.mapM (·.eval item)
    match helper, args with
    | .condition wanted, v :: _ =>
      if truthy v = wanted then renderAll item body else renderAll item otherwise
    | .forEach, v :: _ =>
      match itemsOf v with
      | [] => renderAll item otherwise
      | items => String.join <$> items.mapM fun i => renderAll i body
    | .within, v :: _ => if truthy v then renderAll v body else renderAll item otherwise
    | .plain, _ => renderAll item body
    | .silent, _ => some ""
    | .indent, args => some (shifted args)
    | _, _ => none

def renderAll (item : Json) : List Part → Option String
  | [] => some ""
  | p :: ps => do
    let s ← render item p
    let t ← renderAll item ps
    pure (s ++ t)

end

end DesignComponents.Template
