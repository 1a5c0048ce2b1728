import DesignComponents.Proofs.Markup.Members

/-! Markup as a sequence of marks. Opening tags, texts and closing tags follow each other, and the
text of a component is their layout: every element starts a line, so does a closing tag behind
another one, and each line is indented by two spaces for every element that is open there. The
texts of the tags are written out here once more, without the functions that print them.
A reader with a stack of open elements finds the marks of markup balanced, and finds around each
element and each piece of text the elements that it stands in. -/

namespace DesignComponents

/-- An attribute as it stands in an opening tag. What it puts in is a member of the component. -/
def Attribute.text : Attribute → String
  | styleClass value => " class=\"" ++ value ++ "\""
  | listener event handler => " @" ++ event ++ "=$\x7bthis." ++ handler ++ "\x7d"
  | binding name => " ." ++ name ++ "=$\x7bthis." ++ name ++ "\x7d"

theorem Attribute.print_eq_text (a : Attribute) : a.print = a.text := by
  cases a with
  | styleClass value => rfl
  | listener event handler =>
    rw [print, text, substitution]
    simp only [String.append_assoc]
    rfl
  | binding name =>
    rw [print, text, substitution]
    simp only [String.append_assoc]
    rfl

/-- A piece of text as it stands between tags. -/
def Piece.text : Piece → String
  | literal text => Text.templateText text
  | member name => "$\x7bthis." ++ name ++ "\x7d"

theorem Piece.print_eq_text (p : Piece) : p.print = p.text := by
  cases p <;> rfl

theorem Markup.toList_margin (depth : Nat) :
    (margin depth).toList = List.replicate (2 * depth) ' ' := by
  rw [margin]
  induction depth with
  | zero => rfl
  | succ n ih =>
    rw [List.replicate_succ, String.join_cons, String.toList_append, ih, Nat.mul_succ,
      Nat.add_comm, List.replicate_add]
    rfl

/-- An opening tag. -/
structure Opening where
  tag : String
  attributes : List Attribute

namespace Opening

def text (o : Opening) : String :=
  "<" ++ o.tag ++ String.join (o.attributes.map Attribute.text) ++ ">"

/-- The closing tag of the element. -/
def closing (o : Opening) : String := "</" ++ o.tag ++ ">"

theorem openTag_eq_text (o : Opening) : Markup.openTag o.tag o.attributes = o.text := by
  rw [Markup.openTag, text, List.map_congr_left fun a _ => a.print_eq_text]

example : text ⟨"button", [.styleClass "card-element", .listener "click" "onCardClick"]⟩ =
    "<button class=\"card-element\" @click=$\x7bthis.onCardClick\x7d>" := by decide +kernel

end Opening

inductive Mark where
  | opening (o : Opening)
  | piece (p : Piece)
  | closing (tag : String)

namespace Mark

def isClosing : Mark → Bool
  | closing _ => true
  | _ => false

/-- The text of a mark. -/
def text : Mark → String
  | opening o => o.text
  | piece p => p.text
  | closing tag => "</" ++ tag ++ ">"

/-- A new line with two spaces for each open element. -/
def newLine (depth : Nat) : String := "\n" ++ String.ofList (List.replicate (2 * depth) ' ')

@[simp] theorem newLine_eq (depth : Nat) : newLine depth = "\n" ++ Markup.margin depth := by
  rw [newLine, ← Markup.toList_margin, String.ofList_toList]

/-- The text of marks, given the number of open elements and the mark before. -/
def layout : Nat → Option Mark → List Mark → String
  | _, _, [] => ""
  | depth, before, opening o :: ms =>
    (if before.isSome then newLine depth else "") ++ (opening o).text ++
      layout (depth + 1) (some (opening o)) ms
  | depth, _, piece p :: ms => (piece p).text ++ layout depth (some (piece p)) ms
  | depth, before, closing tag :: ms =>
    (if before.any isClosing then newLine (depth - 1) else "") ++ (closing tag).text ++
      layout (depth - 1) (some (closing tag)) ms

@[simp] theorem text_opening (o : Opening) :
    (opening o).text = Markup.openTag o.tag o.attributes := o.openTag_eq_text.symm

@[simp] theorem text_piece (p : Piece) : (piece p).text = p.print := p.print_eq_text.symm

@[simp] theorem text_closing (tag : String) : (closing tag).text = Markup.closeTag tag := rfl

/-- Reads marks with a stack of open elements, innermost first. Lists each element behind those
around it, and each piece of text with the elements around it; fails if a closing tag does not
belong to the innermost open element, if text stands outside, or if an element stays open. -/
def nesting : List Opening → List Mark → Option (List (List Opening × Option Piece))
  | [], [] => some []
  | _ :: _, [] => none
  | stack, opening o :: ms => (nesting (o :: stack) ms).map ((o :: stack, none) :: ·)
  | [], piece _ :: _ => none
  | o :: stack, piece p :: ms => (nesting (o :: stack) ms).map ((o :: stack, some p) :: ·)
  | [], closing _ :: _ => none
  | o :: stack, closing tag :: ms => if o.tag = tag then nesting stack ms else none

end Mark

namespace Markup

def tag : Markup → String
  | inline tag _ _ => tag
  | block tag _ _ => tag

mutual

/-- The marks of an element. -/
def marks : Markup → List Mark
  | inline tag attributes content =>
    .opening ⟨tag, attributes⟩ :: content.map .piece ++ [.closing tag]
  | block tag attributes children =>
    .opening ⟨tag, attributes⟩ :: marksAll children ++ [.closing tag]

def marksAll : List Markup → List Mark
  | [] => []
  | m :: ms => marks m ++ marksAll ms

end

theorem marksAll_eq (ms : List Markup) : marksAll ms = ms.flatMap marks := by
  induction ms with
  | nil => rfl
  | cons m ms ih => rw [marksAll, ih, List.flatMap_cons]

/-! ### The text -/

/-- Lines, each behind a line break. -/
def breakLines (ls : List String) : String := String.join (ls.map ("\n" ++ ·))

theorem breakLines_singleton (l : String) : breakLines [l] = "\n" ++ l := by
  rw [breakLines, List.map_singleton, String.join_cons, String.join_nil, String.append_empty]

theorem breakLines_append (ls ls' : List String) :
    breakLines (ls ++ ls') = breakLines ls ++ breakLines ls' := by
  rw [breakLines, List.map_append, String.join_append]
  rfl

theorem breakLines_eq {ls : List String} (h : ls ≠ []) :
    breakLines ls = "\n" ++ String.intercalate "\n" ls := by
  induction ls with
  | nil => exact absurd rfl h
  | cons l ls ih =>
    cases ls with
    | nil => rw [breakLines_singleton, String.intercalate_singleton]
    | cons l' ls =>
      rw [← List.singleton_append, breakLines_append, breakLines_singleton,
        ih (List.cons_ne_nil _ _), List.singleton_append, String.intercalate_cons_cons]
      simp only [String.append_assoc]

theorem lines_ne_nil (depth : Nat) (m : Markup) : m.lines depth ≠ [] := by
  cases m with
  | inline tag attributes content => simp [lines]
  | block tag attributes children => cases children <;> simp [lines]

theorem layout_pieces (depth : Nat) {before : Mark} (hb : before.isClosing = false)
    (content : List Piece) (tag : String) (rest : List Mark) :
    Mark.layout (depth + 1) (some before) (content.map .piece ++ .closing tag :: rest) =
      Piece.printAll content ++ closeTag tag ++ Mark.layout depth (some (.closing tag)) rest := by
  induction content generalizing before with
  | nil => simp [Mark.layout, hb, Piece.printAll]
  | cons p content ih =>
    have hp : Piece.printAll (p :: content) = p.print ++ Piece.printAll content := String.join_cons
    rw [List.map_cons, List.cons_append, Mark.layout, Mark.text_piece, ih rfl, hp]
    simp only [String.append_assoc]

theorem layout_marksAll (depth : Nat) {ms : List Markup}
    (hms : ∀ m ∈ ms, ∀ (before : Mark) (rest : List Mark),
      Mark.layout (depth + 1) (some before) (m.marks ++ rest) =
        breakLines (m.lines (depth + 1)) ++ Mark.layout (depth + 1) (some (.closing m.tag)) rest)
    (last tag : String) (rest : List Mark) :
    Mark.layout (depth + 1) (some (.closing last)) (marksAll ms ++ .closing tag :: rest) =
      breakLines (linesAll (depth + 1) ms ++ [margin depth ++ closeTag tag]) ++
        Mark.layout depth (some (.closing tag)) rest := by
  induction ms generalizing last with
  | nil =>
    rw [marksAll, linesAll, List.nil_append, List.nil_append, breakLines_singleton, Mark.layout,
      Mark.newLine_eq, Mark.text_closing, ← String.append_assoc]
    rfl
  | cons m ms ih =>
    have hrest := ih (fun m' hm' => hms m' (List.mem_cons_of_mem _ hm')) m.tag
    rw [marksAll, linesAll, List.append_assoc, List.append_assoc, breakLines_append,
      hms m List.mem_cons_self, hrest, String.append_assoc]

/-- The layout of the marks of an element is its lines. -/
theorem layout_marks (m : Markup) (depth : Nat) (before : Mark) (rest : List Mark) :
    Mark.layout depth (some before) (m.marks ++ rest) =
      breakLines (m.lines depth) ++ Mark.layout depth (some (.closing m.tag)) rest := by
  induction m generalizing depth before rest with
  | inline tag attributes content =>
    rw [marks, lines, breakLines_singleton, List.append_assoc, List.cons_append, Mark.layout,
      List.singleton_append, layout_pieces depth rfl]
    simp [String.append_assoc, Markup.tag]
  | block tag attributes children ih =>
    rw [marks, List.append_assoc, List.cons_append, List.singleton_append, Mark.layout]
    cases children with
    | nil =>
      rw [lines, breakLines_singleton, marksAll, List.nil_append]
      simp [Mark.layout, Mark.isClosing, Markup.tag, String.append_assoc]
    | cons c cs =>
      rw [marksAll, List.append_assoc, ih c List.mem_cons_self,
        layout_marksAll depth fun m hm => ih m (List.mem_cons_of_mem _ hm) (depth + 1), lines]
      simp only [Option.isSome_some, if_true, Mark.newLine_eq, Mark.text_opening,
        breakLines_append, breakLines_singleton, String.append_assoc]
      rfl

/-- In front of the first element of all there is no line break. -/
theorem layout_of_some (m : Markup) (before : Mark) :
    Mark.layout 0 (some before) m.marks = "\n" ++ Mark.layout 0 none m.marks := by
  cases m <;> simp [marks, Mark.layout, margin, String.append_assoc]

theorem print_eq_layout (m : Markup) : m.print = Mark.layout 0 none m.marks := by
  have h := layout_marks m 0 (.closing "") []
  rw [List.append_nil, layout_of_some, breakLines_eq (lines_ne_nil 0 m), Mark.layout,
    String.append_empty] at h
  exact ((String.append_right_inj _).mp h).symm

/-! ### The nesting -/

mutual

/-- Every element behind those around it, and every piece of text with those around it. -/
def nested (above : List Opening) : Markup → List (List Opening × Option Piece)
  | inline tag attributes content =>
    let chain := ⟨tag, attributes⟩ :: above
    (chain, none) :: content.map fun p => (chain, some p)
  | block tag attributes children =>
    let chain := ⟨tag, attributes⟩ :: above
    (chain, none) :: nestedAll chain children

def nestedAll (above : List Opening) : List Markup → List (List Opening × Option Piece)
  | [] => []
  | m :: ms => nested above m ++ nestedAll above ms

end

theorem nestedAll_eq (above : List Opening) (ms : List Markup) :
    nestedAll above ms = ms.flatMap (nested above) := by
  induction ms with
  | nil => rfl
  | cons m ms ih => rw [nestedAll, ih, List.flatMap_cons]

theorem nesting_pieces (o : Opening) (above : List Opening) (content : List Piece)
    (rest : List Mark) :
    Mark.nesting (o :: above) (content.map .piece ++ rest) =
      (Mark.nesting (o :: above) rest).map
        ((content.map fun p => (o :: above, some p)) ++ ·) := by
  induction content with
  | nil => simp
  | cons p content ih =>
    rw [List.map_cons, List.cons_append, Mark.nesting, ih, Option.map_map]
    rfl

theorem nesting_marksAll {above : List Opening} {ms : List Markup}
    (hms : ∀ m ∈ ms, ∀ rest, Mark.nesting above (m.marks ++ rest) =
      (Mark.nesting above rest).map (m.nested above ++ ·)) (rest : List Mark) :
    Mark.nesting above (marksAll ms ++ rest) =
      (Mark.nesting above rest).map (nestedAll above ms ++ ·) := by
  induction ms with
  | nil => simp [marksAll, nestedAll]
  | cons m ms ih =>
    rw [marksAll, nestedAll, List.append_assoc, hms m List.mem_cons_self,
      ih fun m' hm' => hms m' (List.mem_cons_of_mem _ hm'), Option.map_map]
    simp [Function.comp_def, List.append_assoc]

/-- A reader comes back from an element with the stack that it had before. -/
theorem nesting_marks (m : Markup) (above : List Opening) (rest : List Mark) :
    Mark.nesting above (m.marks ++ rest) =
      (Mark.nesting above rest).map (m.nested above ++ ·) := by
  induction m generalizing above rest with
  | inline tag attributes content =>
    rw [marks, List.append_assoc, List.cons_append, Mark.nesting, nesting_pieces,
      List.singleton_append, Mark.nesting, if_pos rfl, Option.map_map]
    rfl
  | block tag attributes children ih =>
    rw [marks, List.append_assoc, List.cons_append, Mark.nesting,
      nesting_marksAll fun m hm => ih m hm _, List.singleton_append, Mark.nesting, if_pos rfl,
      Option.map_map]
    rfl

/-- The marks of an element are balanced. -/
theorem nesting_eq (m : Markup) : Mark.nesting [] m.marks = some (m.nested []) := by
  have h := nesting_marks m [] []
  rwa [List.append_nil, Mark.nesting, Option.map_some, List.append_nil] at h

end Markup

end DesignComponents
