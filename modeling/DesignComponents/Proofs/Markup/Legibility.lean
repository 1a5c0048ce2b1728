import DesignComponents.Proofs.Markup.Names
import DesignComponents.Proofs.Text.Segmentation
import DesignComponents.Proofs.Text.TemplateLiteral

/-! Texts in markup as a reader of template literals finds them. All that stands around the texts is
read through, and the source of every text reads as the text: runs of it as they are, and one
member for each thing that the text is bound to. -/

namespace DesignComponents

open Identifier (Lettered Table)
open Text.TemplateLiteral

/-! ### Tags -/

theorem Identifier.Lettered.puts {name : String} (h : Lettered name) : Puts name.toList [] := by
  refine puts_of_ordinary (List.all_eq_true.mpr fun c hc => ?_)
  have hname := h c hc
  by_contra hspecial
  simp only [isOrdinary, Bool.and_eq_true, decide_eq_true_eq, not_and_or, not_not] at hspecial
  rcases hspecial with (rfl | rfl) | rfl <;> exact absurd hname (by decide)

/-- The expression of a member. -/
def memberExpression (name : String) : List Char := ("this." ++ name).toList

/-- What a reader finds for the value of a member. -/
def memberItem (name : String) : Item := .value (memberExpression name)

theorem toList_substitution (name : String) :
    (substitution name).toList = '$' :: '{' :: memberExpression name ++ ['}'] := by
  simp [substitution, memberExpression]

theorem brace_notMem_member {name : String} (h : Lettered name) :
    '}' ∉ memberExpression name := by
  rw [memberExpression, String.toList_append, List.mem_append, not_or]
  exact ⟨by decide, h.notMem (by decide)⟩

theorem reads_substitution {name : String} (h : Lettered name) :
    Reads (substitution name).toList [memberItem name] := by
  rw [toList_substitution]
  exact reads_value (brace_notMem_member h)

theorem puts_substitution {name : String} (h : Lettered name) :
    Puts (substitution name).toList [memberExpression name] := by
  rw [toList_substitution]
  exact puts_value (brace_notMem_member h)

theorem Attribute.puts_print {a : Attribute} (h : ∀ name ∈ a.names, Lettered name) :
    Puts a.print.toList (a.member?.toList.map memberExpression) := by
  cases a with
  | styleClass value =>
    have hv := (h value (by simp [names])).puts
    have hfront : Puts " class=\"".toList [] := puts_of_ordinary (by decide)
    have hback : Puts "\"".toList [] := puts_of_ordinary (by decide)
    exact (hfront.toList_append hv).toList_append hback
  | listener event handler =>
    have he := (h event (by simp [names])).puts
    have hh := puts_substitution (h handler (by simp [names]))
    have hfront : Puts " @".toList [] := puts_of_ordinary (by decide)
    have hequals : Puts "=".toList [] := puts_of_ordinary (by decide)
    exact ((hfront.toList_append he).toList_append hequals).toList_append hh
  | binding name =>
    have hn := h name (by simp [names])
    have hfront : Puts " .".toList [] := puts_of_ordinary (by decide)
    have hequals : Puts "=".toList [] := puts_of_ordinary (by decide)
    exact ((hfront.toList_append hn.puts).toList_append hequals).toList_append
      (puts_substitution hn)

namespace Markup

/-- An opening tag puts in the members of its attributes. -/
theorem puts_openTag {tag : String} {attributes : List Attribute}
    (h : ∀ name ∈ tag :: attributes.flatMap Attribute.names, Lettered name) :
    Puts (openTag tag attributes).toList
      ((attributes.filterMap Attribute.member?).map memberExpression) := by
  rw [List.forall_mem_cons] at h
  have hattributes := puts_join (f := Attribute.print)
    (g := fun a => a.member?.toList.map memberExpression) (l := attributes) fun a ha =>
      Attribute.puts_print fun name hn => h.2 name (List.mem_flatMap.mpr ⟨a, ha, hn⟩)
  rw [← List.map_flatMap, ← List.filterMap_eq_flatMap_toList] at hattributes
  have hfront : Puts "<".toList [] := puts_of_ordinary (by decide)
  have hback : Puts ">".toList [] := puts_of_ordinary (by decide)
  have hputs := ((hfront.toList_append h.1.puts).toList_append hattributes).toList_append hback
  rwa [List.append_nil] at hputs

theorem puts_closeTag {tag : String} (h : Lettered tag) : Puts (closeTag tag).toList [] := by
  have hfront : Puts "</".toList [] := puts_of_ordinary (by decide)
  have hback : Puts ">".toList [] := puts_of_ordinary (by decide)
  exact (hfront.toList_append h.puts).toList_append hback

theorem puts_margin (depth : Nat) : Puts (margin depth).toList [] := by
  rw [toList_margin]
  refine puts_of_ordinary (List.all_eq_true.mpr fun c hc => ?_)
  rw [List.eq_of_mem_replicate hc]
  decide

end Markup

/-! ### Lines -/

/-- Lines that can be read one by one, with all that they put in. -/
inductive PutsLines : List String → List (List Char) → Prop
  | nil : PutsLines [] []
  | cons {l : String} {ls : List String} {es es' : List (List Char)} (h : Puts l.toList es)
      (hs : PutsLines ls es') : PutsLines (l :: ls) (es ++ es')

namespace PutsLines

variable {ls ls' : List String} {es es' : List (List Char)}

theorem append (h : PutsLines ls es) (h' : PutsLines ls' es') :
    PutsLines (ls ++ ls') (es ++ es') := by
  induction h with
  | nil => exact h'
  | cons h _ ih =>
    rw [List.cons_append, List.append_assoc]
    exact .cons h ih

theorem singleton {l : String} (h : Puts l.toList es) : PutsLines [l] es := by
  have hl := cons h nil
  rwa [List.append_nil] at hl

theorem flatMap {ms : List Markup} {f : Markup → List String} {g : Markup → List (List Char)}
    (h : ∀ m ∈ ms, PutsLines (f m) (g m)) : PutsLines (ms.flatMap f) (ms.flatMap g) := by
  induction ms with
  | nil => exact nil
  | cons m ms ih =>
    rw [List.forall_mem_cons] at h
    exact h.1.append (ih h.2)

theorem readable (h : PutsLines ls es) {l : String} (hl : l ∈ ls) : Readable l.toList := by
  induction h with
  | nil => cases hl
  | cons h _ ih =>
    rcases List.mem_cons.mp hl with rfl | hl
    · exact ⟨_, h⟩
    · exact ih hl

theorem puts_intercalate (h : PutsLines ls es) :
    Puts (String.intercalate "\n" ls).toList es := by
  have hbreak : Puts "\n".toList [] := puts_of_ordinary (by decide)
  induction h with
  | nil => exact puts_nil
  | @cons l ls es es' h hs ih =>
    cases ls with
    | nil =>
      cases hs
      rw [String.intercalate_singleton, List.append_nil]
      exact h
    | cons l' ls =>
      rw [String.intercalate_cons_cons, String.append_assoc]
      exact h.toList_append (hbreak.toList_append ih)

end PutsLines

namespace Markup

theorem linesAll_eq (depth : Nat) (ms : List Markup) :
    linesAll depth ms = ms.flatMap (lines depth) := by
  induction ms with
  | nil => rfl
  | cons m ms ih => rw [linesAll, ih, List.flatMap_cons]

/-- Children stand on lines of their own; only without any, both tags share a line. -/
theorem lines_block (depth : Nat) (tag : String) (attributes : List Attribute)
    {children : List Markup} (h : children ≠ []) :
    (block tag attributes children).lines depth =
      (margin depth ++ openTag tag attributes) ::
        children.flatMap (lines (depth + 1)) ++ [margin depth ++ closeTag tag] := by
  cases children with
  | nil => exact absurd rfl h
  | cons c cs =>
    rw [lines, linesAll_eq, List.flatMap_cons]
    rfl

theorem mem_elements_block {m : Markup} {tag : String} {attributes : List Attribute}
    {children : List Markup} :
    m ∈ (block tag attributes children).elements ↔
      m = block tag attributes children ∨ ∃ c ∈ children, m ∈ c.elements := by
  rw [elements, elementsAll_eq, List.mem_cons, List.mem_flatMap]

theorem self_mem_elements (m : Markup) : m ∈ m.elements := by
  cases m <;> simp [elements]

/-- An element with text has a line. -/
theorem exists_line_of_inline {m : Markup} {tag : String} {attributes : List Attribute}
    {content : List Piece} (h : inline tag attributes content ∈ m.elements) (depth : Nat) :
    ∃ depth', margin depth' ++ openTag tag attributes ++ Piece.printAll content ++ closeTag tag ∈
      m.lines depth := by
  induction m generalizing depth with
  | inline tag' attributes' content' =>
    cases List.mem_singleton.mp h
    exact ⟨depth, List.mem_singleton_self _⟩
  | block tag' attributes' children ih =>
    rcases mem_elements_block.mp h with h | ⟨c, hc, h⟩
    · cases h
    · obtain ⟨depth', hl⟩ := ih c hc h (depth + 1)
      refine ⟨depth', ?_⟩
      rw [lines_block depth _ _ (List.ne_nil_of_mem hc)]
      exact List.mem_append_left _ (List.mem_cons_of_mem _ (List.mem_flatMap.mpr ⟨c, hc, hl⟩))

theorem toList_closeTag (tag : String) :
    (closeTag tag).toList = '<' :: ("/" ++ tag ++ ">").toList := by
  simp [closeTag]

/-- The content of an element puts in its members. -/
def Legible (m : Markup) : Prop :=
  ∃ items, Reads (Piece.printAll m.content).toList items ∧
    expressions items = (m.content.filterMap Piece.member?).map memberExpression

/-- Markup puts in its members if every element is written with names and every text can be read. -/
theorem putsLines_lines {m : Markup}
    (hnames : ∀ m' ∈ m.elements, ∀ name ∈ m'.names, Lettered name)
    (hcontent : ∀ m' ∈ m.elements, m'.Legible) (depth : Nat) :
    PutsLines (m.lines depth) (m.members.map memberExpression) := by
  induction m generalizing depth with
  | inline tag attributes content =>
    have hself := self_mem_elements (inline tag attributes content)
    have hopen := puts_openTag (hnames _ hself)
    have hclose := puts_closeTag (hnames _ hself tag List.mem_cons_self)
    obtain ⟨items, hitems, hexpressions⟩ := hcontent _ hself
    rw [toList_closeTag] at hclose
    have hinside := hitems.puts_append hclose (by decide)
    rw [← toList_closeTag, ← String.toList_append, hexpressions, List.append_nil] at hinside
    rw [lines, members_inline, List.map_append, String.append_assoc]
    exact .singleton (((puts_margin depth).toList_append hopen).toList_append hinside)
  | block tag attributes children ih =>
    have hself := self_mem_elements (block tag attributes children)
    have hopen : Puts (margin depth ++ openTag tag attributes).toList
        ((attributes.filterMap Attribute.member?).map memberExpression) :=
      (puts_margin depth).toList_append (puts_openTag (hnames _ hself))
    have hclose := puts_closeTag (hnames _ hself tag List.mem_cons_self)
    rw [members_block, List.map_append, List.map_flatMap]
    by_cases hc : children = []
    · subst hc
      exact .singleton (hopen.toList_append hclose)
    · have hinside : PutsLines (children.flatMap (lines (depth + 1)))
          (children.flatMap fun c => c.members.map memberExpression) := by
        refine PutsLines.flatMap fun c hc => ?_
        have hsub : ∀ m' ∈ c.elements, m' ∈ (block tag attributes children).elements :=
          fun m' hm => mem_elements_block.mpr (.inr ⟨c, hc, hm⟩)
        exact ih c hc (fun m' hm => hnames m' (hsub m' hm))
          (fun m' hm => hcontent m' (hsub m' hm)) (depth + 1)
      have hlast : PutsLines [margin depth ++ closeTag tag] [] :=
        .singleton ((puts_margin depth).toList_append hclose)
      have hlines := (PutsLines.cons hopen hinside).append hlast
      rwa [List.append_nil, ← lines_block _ _ _ hc] at hlines

/-- A reader finds the members of all elements in the text, in their order. -/
theorem puts_print {m : Markup} (hnames : ∀ m' ∈ m.elements, ∀ name ∈ m'.names, Lettered name)
    (hcontent : ∀ m' ∈ m.elements, m'.Legible) :
    Puts m.print.toList (m.members.map memberExpression) :=
  (putsLines_lines hnames hcontent 0).puts_intercalate

theorem intercalate_append_cons (above : List String) (l : String) (below : List String) :
    String.intercalate "\n" (above ++ l :: below) =
      String.join (above.map (· ++ "\n")) ++ l ++ breakLines below := by
  induction above with
  | nil =>
    cases below with
    | nil => simp [breakLines]
    | cons l' below =>
      rw [List.nil_append, String.intercalate_cons_cons, breakLines_eq (List.cons_ne_nil _ _)]
      simp [String.append_assoc]
  | cons l' above ih =>
    rw [List.cons_append, String.intercalate_cons_of_ne_nil (by simp), ih, List.map_cons,
      String.join_cons]
    simp only [String.append_assoc]

/-- The text of markup around one of its lines. -/
theorem print_eq_of_lines {m : Markup} {above below : List String} {l : String}
    (h : m.lines 0 = above ++ l :: below) :
    m.print = String.join (above.map (· ++ "\n")) ++ l ++ breakLines below := by
  rw [print, h, intercalate_append_cons]

/-- The inside of an element, read where it stands in source: the reader comes through to it, finds
the items in it, and goes on behind it up to the end of the literal. -/
def ReadsInside (source : String) (o : Opening) (items : List Item) : Prop :=
  ∃ (before body after : String) (leading trailing : List Item),
    source = before ++ o.text ++ body ++ o.closing ++ after ∧
      Reads (before ++ o.text).toList leading ∧
      Reads body.toList items ∧
      Reads (o.closing ++ after).toList trailing ∧
      ∀ rest, read (source.toList ++ '\x60' :: rest) = some (leading ++ items ++ trailing, rest)

theorem readsInside_of_readable {before body after : String} {o : Opening} {items : List Item}
    (hbefore : Readable (before ++ openTag o.tag o.attributes).toList)
    (hbody : Reads body.toList items) (hafter : Readable (closeTag o.tag ++ after).toList) :
    ReadsInside (before ++ openTag o.tag o.attributes ++ body ++ closeTag o.tag ++ after) o
      items := by
  rw [o.openTag_eq_text] at hbefore ⊢
  obtain ⟨-, hlast, leading, hleading, -⟩ := hbefore
  obtain ⟨-, -, trailing, htrailing, -⟩ := hafter
  refine ⟨before, body, after, leading, trailing, rfl, hleading, hbody, htrailing, fun rest => ?_⟩
  have htext := hleading.append hbody fun h => absurd h hlast
  have hhead : (closeTag o.tag ++ after).toList.head? ≠ some '{' := by
    rw [String.toList_append, toList_closeTag, List.cons_append, List.head?_cons]
    decide
  rw [← (htext.append htrailing fun _ => hhead).read_eq rest]
  simp only [String.toList_append, List.append_assoc]

theorem readsInside_print {m : Markup}
    (hnames : ∀ m' ∈ m.elements, ∀ name ∈ m'.names, Lettered name)
    (hcontent : ∀ m' ∈ m.elements, m'.Legible)
    {tag : String} {attributes : List Attribute} {content : List Piece}
    (hm : inline tag attributes content ∈ m.elements) {items : List Item}
    (hitems : Reads (Piece.printAll content).toList items) :
    ReadsInside m.print ⟨tag, attributes⟩ items := by
  obtain ⟨depth, hline⟩ := exists_line_of_inline hm 0
  obtain ⟨above, below, hlines⟩ := List.append_of_mem hline
  have hread : ∀ l ∈ above ++ below, Readable l.toList := by
    intro l hl
    refine (putsLines_lines hnames hcontent 0).readable ?_
    rw [hlines]
    simp only [List.mem_append, List.mem_cons] at hl ⊢
    tauto
  have hbreak : Readable "\n".toList := ⟨_, puts_of_ordinary (by decide)⟩
  have habove : Readable (String.join (above.map (· ++ "\n"))).toList := by
    refine readable_join fun l hl => ?_
    obtain ⟨l', hl', rfl⟩ := List.mem_map.mp hl
    exact (hread l' (List.mem_append_left _ hl')).toList_append hbreak
  have hbelow : Readable (breakLines below).toList := by
    refine readable_join fun l hl => ?_
    obtain ⟨l', hl', rfl⟩ := List.mem_map.mp hl
    exact hbreak.toList_append (hread l' (List.mem_append_right _ hl'))
  have hopen : Readable (openTag tag attributes).toList := ⟨_, puts_openTag (hnames _ hm)⟩
  have hclose : Readable (closeTag tag).toList :=
    ⟨_, puts_closeTag (hnames _ hm tag List.mem_cons_self)⟩
  obtain ⟨before, hbefore, hprint⟩ : ∃ before : String, Readable before.toList ∧
      m.print = before ++ openTag tag attributes ++ Piece.printAll content ++ closeTag tag ++
        breakLines below := by
    refine ⟨_, habove.toList_append ⟨_, puts_margin depth⟩, ?_⟩
    rw [print_eq_of_lines hlines]
    simp only [String.append_assoc]
  rw [hprint]
  exact readsInside_of_readable (o := ⟨tag, attributes⟩) (hbefore.toList_append hopen) hitems
    (hclose.toList_append hbelow)

end Markup

end DesignComponents
