import DesignComponents.Identifier.Words

/-! Namespaces of generated identifiers and the base name that a display name has in each. Tags
are kebab case with the ending `-element`, class names pascal case with the ending `Element`,
members camel case. A base is never empty and never starts with a digit. -/

namespace DesignComponents.Identifier

inductive Namespace where
  /-- Custom element tags and style classes. -/
  | tag
  /-- Component classes. -/
  | className
  /-- Properties and event handlers of a component. -/
  | member
  deriving DecidableEq, Repr

namespace Namespace

def all : List Namespace := [tag, className, member]

/-- The name of a thing whose display name has no words. -/
def fallback : Namespace → List Char
  | tag => "node".toList
  | className => "Node".toList
  | member => "property".toList

/-- What goes before a name that starts with a digit. -/
def guard : Namespace → List Char
  | tag => ['x', '-']
  | className => ['_']
  | member => ['_']

/-- What a name has to end in. -/
def ending : Namespace → List Char
  | tag => "-element".toList
  | className => "Element".toList
  | member => []

def cased : Namespace → List Char → List Char
  | tag => kebab
  | className => pascal
  | member => camel

def orFallback (ns : Namespace) : List Char → List Char
  | [] => ns.fallback
  | c :: cs => c :: cs

def guarded (ns : Namespace) : List Char → List Char
  | [] => []
  | c :: cs => if c.isDigit then ns.guard ++ c :: cs else c :: cs

def ended (ns : Namespace) (name : List Char) : List Char :=
  if ns.ending.isSuffixOf name then name else name ++ ns.ending

/-- The base name of a display name. -/
def normalize (ns : Namespace) (raw : String) : String :=
  String.ofList (ns.ended (ns.guarded (ns.orFallback (ns.cased raw.toList))))

end Namespace

end DesignComponents.Identifier
