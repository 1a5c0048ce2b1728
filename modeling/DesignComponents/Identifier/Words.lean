/-! Words of a display name. Every character that is no ASCII letter or digit separates words.
Inside a run of letters and digits a new word starts at a capital after a small letter, and at
a capital between a capital and a small letter; digits never start one. -/

namespace DesignComponents.Identifier

/-- Runs of letters and digits. -/
def chunks : List Char → List (List Char)
  | [] => []
  | [c] => if c.isAlphanum then [[c]] else []
  | c :: d :: cs =>
    let rest := chunks (d :: cs)
    if c.isAlphanum then
      match d.isAlphanum, rest with
      | true, w :: ws => (c :: w) :: ws
      | _, ws => [c] :: ws
    else rest

/-- Whether a new word starts between a character and the text behind it. -/
def startsWord (before : Char) : List Char → Bool
  | [] => false
  | [c] => before.isLower && c.isUpper
  | c :: d :: _ => (before.isLower && c.isUpper) || (before.isUpper && c.isUpper && d.isLower)

/-- Cuts a run of letters and digits into words. -/
def cut : List Char → List (List Char)
  | [] => []
  | [c] => [[c]]
  | c :: d :: cs =>
    match startsWord c (d :: cs), cut (d :: cs) with
    | false, w :: ws => (c :: w) :: ws
    | _, ws => [c] :: ws

def words (text : List Char) : List (List Char) :=
  (chunks text).flatMap cut

def lower (w : List Char) : List Char := w.map Char.toLower

/-- First letter as a capital, the others small. -/
def capitalize : List Char → List Char
  | [] => []
  | c :: cs => c.toUpper :: lower cs

def joinDashed : List (List Char) → List Char
  | [] => []
  | [w] => w
  | w :: ws => w ++ '-' :: joinDashed ws

/-- Small words joined by dashes. -/
def kebab (text : List Char) : List Char := joinDashed ((words text).map lower)

/-- Capitalized words, joined. -/
def pascal (text : List Char) : List Char := (words text).flatMap capitalize

/-- A small word and then capitalized words, joined. -/
def camel (text : List Char) : List Char :=
  match words text with
  | [] => []
  | w :: ws => lower w ++ ws.flatMap capitalize

end DesignComponents.Identifier
