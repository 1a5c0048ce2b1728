import DesignComponents.Text.Literal
import Mathlib.Tactic.Common

/-! Reading quoted literals. A quoted literal stands on one line between two apostrophes; behind a
backslash stand a backslash, an apostrophe, or the letter of a line break. The literal of a text
reads as the text, whatever it is. -/

namespace DesignComponents.Text

/-- Reads the inside of a quoted literal and its end, which must be the end of the source. -/
def readQuotedFrom : List Char → Option (List Char)
  | [] => none
  | '\\' :: '\\' :: cs => (readQuotedFrom cs).map ('\\' :: ·)
  | '\\' :: '\'' :: cs => (readQuotedFrom cs).map ('\'' :: ·)
  | '\\' :: 'n' :: cs => (readQuotedFrom cs).map ('\n' :: ·)
  | '\\' :: 'r' :: cs => (readQuotedFrom cs).map ('\r' :: ·)
  | '\'' :: cs => if cs = [] then some [] else none
  | c :: cs =>
    if c = '\\' ∨ c = '\n' ∨ c = '\r' then none else (readQuotedFrom cs).map (c :: ·)

/-- The text of a quoted literal. -/
def readQuoted (literal : String) : Option String :=
  match literal.toList with
  | '\'' :: cs => (readQuotedFrom cs).map String.ofList
  | _ => none

theorem readQuotedFrom_escape (c : Char) (cs : List Char) :
    readQuotedFrom (escapeQuotedChar c ++ cs) = (readQuotedFrom cs).map (c :: ·) := by
  fun_cases escapeQuotedChar c with
  | case1 | case2 | case3 | case4 => rfl
  | case5 c hb ha hn hr =>
    rw [List.singleton_append, readQuotedFrom]
    · refine if_neg ?_
      rintro (h | h | h)
      exacts [hb h, hn h, hr h]
    · exact fun _ he _ => hb he
    · exact fun _ he _ => hb he
    · exact fun _ he _ => hb he
    · exact fun _ he _ => hb he
    · exact fun he => ha he

theorem readQuotedFrom_flatMap (cs : List Char) :
    readQuotedFrom (cs.flatMap escapeQuotedChar ++ ['\'']) = some cs := by
  induction cs with
  | nil => rfl
  | cons c cs ih =>
    rw [List.flatMap_cons, List.append_assoc, readQuotedFrom_escape, ih, Option.map_some]

theorem toList_quote (text : String) :
    (quote text).toList = '\'' :: text.toList.flatMap escapeQuotedChar ++ ['\''] :=
  String.toList_ofList

/-- The literal of a text reads as the text. -/
theorem readQuoted_quote (text : String) : readQuoted (quote text) = some text := by
  rw [readQuoted, toList_quote, List.cons_append]
  simp only [readQuotedFrom_flatMap, Option.map_some, String.ofList_toList]

theorem break_notMem_escape (c : Char) :
    '\n' ∉ escapeQuotedChar c ∧ '\r' ∉ escapeQuotedChar c := by
  fun_cases escapeQuotedChar c with
  | case1 | case2 | case3 | case4 => decide
  | case5 c _ _ hn hr =>
    simp only [List.mem_singleton]
    exact ⟨Ne.symm hn, Ne.symm hr⟩

/-- A literal has no line breaks. -/
theorem break_notMem_quote (text : String) :
    '\n' ∉ (quote text).toList ∧ '\r' ∉ (quote text).toList := by
  rw [toList_quote]
  simp only [List.mem_append, List.mem_cons, List.mem_flatMap, List.not_mem_nil, or_false, not_or,
    not_exists, not_and]
  refine ⟨⟨⟨by decide, fun c _ => (break_notMem_escape c).1⟩, by decide⟩,
    ⟨⟨by decide, fun c _ => (break_notMem_escape c).2⟩, by decide⟩⟩

end DesignComponents.Text
