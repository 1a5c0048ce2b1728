import DesignComponents.Proofs.Identifier.Calls
import DesignComponents.Proofs.Markup.Texts

/-! Texts in markup that any table names. What has no name in the table is written out as it stands
in the scene, escaped segment by segment. So all that a reader finds put in are members of the
table, unless a dollar sign stands in front of a placeholder that is written out: the braces of
the placeholder then open a substitution. -/

namespace DesignComponents

open Identifier (Table)
open Text.TemplateLiteral

/-! ### Substitutions that are opened -/

namespace Text.TemplateLiteral

/-- A dollar sign at the end is not escaped. -/
theorem escapeTemplate_concat_dollar (text : List Char) :
    escapeTemplate (text ++ ['$']) = escapeTemplate text ++ ['$'] := by
  fun_induction escapeTemplate text with
  | case1 => rfl
  | case2 cs ih | case3 cs ih | case4 cs ih => simp [escapeTemplate, ih]
  | case5 c cs hb ha hd ih =>
    rw [List.cons_append, escapeTemplate.eq_5 c (cs ++ ['$']) hb ha, ih, List.cons_append]
    intro cs' hc he
    cases cs with
    | nil => simp at he
    | cons d cs =>
      obtain ⟨rfl, -⟩ := List.cons.inj he
      exact hd cs hc rfl

/-- A substitution is found with all that was read of it. -/
theorem exists_value_of_readFrom {e source : List Char} {items : List Item} {rest : List Char}
    (h : readFrom (some e) source = some (items, rest)) :
    ∃ more, .value (e.reverse ++ more) ∈ items := by
  induction source generalizing e with
  | nil => simp [readFrom] at h
  | cons c cs ih =>
    by_cases hc : c = '}'
    · subst hc
      obtain ⟨items', -, rfl⟩ := exists_of_map_found h
      exact ⟨[], by simp⟩
    · rw [readFrom] at h
      · obtain ⟨more, hm⟩ := ih h
        exact ⟨c :: more, by simpa using hm⟩
      · exact hc

/-- All that a reader finds put in are values of members of the table, wherever the source stands. -/
def OnlyMembers (names : Table) (source : List Char) : Prop :=
  ∃ items, Reads source items ∧ ∀ e, .value e ∈ items →
    ∃ a name, names.lookup .member a = some name ∧ e = ("this." ++ name).toList

end Text.TemplateLiteral

namespace Piece

variable {s : Snapshot} {names : Table}

theorem bound_eq_literal {a : Identifier.Entity} (h : names.lookup .member a = none)
    (fallback : String) : bound names a fallback = literal fallback := by
  simp only [bound, h]

/-- In front of a placeholder that is written out, a dollar sign opens a substitution. -/
theorem exists_value_of_seam {text body : String} (hlast : text.toList.getLast? = some '$')
    (hnone : names.lookup .member (Source.placeholder body).entity = none) {rest : List Char}
    {items : List Item} {behind : List Char}
    (h : read ((ofSegment names (.literal text)).print.toList ++
      ((ofSegment names (.placeholder body)).print.toList ++ rest)) = some (items, behind)) :
    ∃ e, .value ('{' :: e) ∈ items := by
  obtain ⟨front, hfront⟩ := List.getLast?_eq_some_iff.mp hlast
  obtain ⟨tail, htail⟩ : ∃ tail, (ofSegment names (.placeholder body)).print.toList =
      '{' :: '{' :: tail := by
    refine ⟨Text.escapeTemplate (body.toList ++ ['}', '}']), ?_⟩
    rw [ofSegment, bound_eq_literal hnone, print, Text.templateText, String.toList_ofList]
    simp [Text.escapeTemplate]
  have hread := reads_escapeTemplate front ('$' :: '{' :: '{' :: (tail ++ rest)) (by simp)
  rw [ofSegment, print, Text.templateText, String.toList_ofList, hfront,
    escapeTemplate_concat_dollar, htail, List.append_assoc] at h
  obtain ⟨items', hitems', rfl⟩ := exists_of_map_found (hread.symm.trans h)
  obtain ⟨more, hm⟩ := exists_value_of_readFrom (e := ['{']) hitems'
  exact ⟨more, List.mem_append_right _ hm⟩

theorem exists_of_not_parted {segment next : Text.Segment} (h : ¬ Parted names segment next) :
    ∃ text body, segment = .literal text ∧ next = .placeholder body ∧
      text.toList.getLast? = some '$' ∧
      names.lookup .member (Source.placeholder body).entity = none := by
  cases segment with
  | placeholder body => exact absurd trivial h
  | literal text =>
    cases next with
    | literal text' => exact absurd trivial h
    | placeholder body =>
      rw [Parted, Classical.not_imp, Option.not_isSome_iff_eq_none] at h
      exact ⟨text, body, rfl, rfl, h⟩

/-- If the segments of a text are not parted, some substitution starts with a brace. -/
theorem exists_value_of_not_parted (hn : names.Lettered) {segments : List Text.Segment}
    (hchain : segments.IsChain Text.Segment.Apart)
    (hparted : ¬ segments.IsChain (Parted names)) {rest : List Char} {items : List Item}
    {behind : List Char}
    (h : read ((printAll (segments.map (ofSegment names))).toList ++ rest) =
      some (items, behind)) : ∃ e, .value ('{' :: e) ∈ items := by
  induction segments generalizing items with
  | nil => exact absurd List.isChain_nil hparted
  | cons segment segments ih =>
    cases segments with
    | nil => exact absurd (List.isChain_singleton segment) hparted
    | cons next segments =>
      rw [List.isChain_cons_cons] at hchain hparted
      rw [List.map_cons, printAll_cons, String.toList_append, List.append_assoc] at h
      by_cases hp : Parted names segment next
      · have hread := reads_segment hn segment
          ((printAll ((next :: segments).map (ofSegment names))).toList ++ rest) fun hlast => by
            rw [List.head?_append, head?_of_parted hn hchain.1 hp segments hlast, Option.some_or]
            decide
        obtain ⟨items', hitems', rfl⟩ := exists_of_map_found (hread.symm.trans h)
        obtain ⟨e, he⟩ := ih hchain.2 (fun hc => hparted ⟨hp, hc⟩) hitems'
        exact ⟨e, List.mem_append_right _ he⟩
      · obtain ⟨text, body, rfl, rfl, hlast, hnone⟩ := exists_of_not_parted hp
        rw [List.map_cons, printAll_cons, String.toList_append, List.append_assoc] at h
        exact exists_value_of_seam hlast hnone h

theorem value_of_mem_boundItems {a : Identifier.Entity} {fallback : String} {e : List Char}
    (h : .value e ∈ boundItems names a fallback) :
    ∃ a name, names.lookup .member a = some name ∧ e = ("this." ++ name).toList := by
  rw [boundItems] at h
  cases hname : names.lookup .member a with
  | some name =>
    simp only [hname, List.mem_singleton, memberItem, Item.value.injEq] at h
    exact ⟨a, name, hname, h⟩
  | none => simp [hname, chars] at h

end Piece

/-! ### Texts without names -/

section Texts

variable {s : Snapshot} {names : Table} {n : Node} {text : String}

theorem FallbackItems.value_eq {items : List Item} (h : FallbackItems s names n text items)
    {e : List Char} (he : .value e ∈ items) :
    ∃ a name, names.lookup .member a = some name ∧ e = ("this." ++ name).toList := by
  cases h with
  | placeholders hp =>
    obtain ⟨segment, -, he⟩ := List.mem_flatMap.mp he
    cases segment with
    | literal run => simp [Piece.segmentItems, chars] at he
    | placeholder body => exact Piece.value_of_mem_boundItems he
  | property hp hr => exact Piece.value_of_mem_boundItems he
  | «variable» hp hr hv hs => exact Piece.value_of_mem_boundItems he
  | literal hp hr hv => simp [chars] at he

/-- Where a dollar sign meets a placeholder without a name, something is put in that is no member. -/
theorem not_onlyMembers (hn : names.Lettered) (ht : n.characters = some text)
    (hseam : ¬ Seamless names text) :
    ¬ OnlyMembers names (Piece.printAll (Piece.ofText s names n)).toList := by
  rintro ⟨items, hreads, hmembers⟩
  have hp : ∃ body, .placeholder body ∈ Text.segments text := by
    by_contra hp
    exact hseam (seamless_of_lookup fun body hb => absurd ⟨body, hb⟩ hp)
  have hread := hreads.read_eq []
  simp only [Piece.ofText, (Binding.Fits.placeholders hp).classify_eq ht] at hread
  obtain ⟨e, he⟩ := Piece.exists_value_of_not_parted hn (Text.isChain_apart_segments text) hseam hread
  obtain ⟨a, name, -, hthis⟩ := hmembers _ he
  rw [String.toList_append] at hthis
  exact absurd (List.cons.inj hthis).1 (by decide)

end Texts

namespace Markup

/-- The text around the content of an element. -/
theorem exists_print_eq_of_inline {m : Markup} {tag : String} {attributes : List Attribute}
    {content : List Piece} (h : inline tag attributes content ∈ m.elements) :
    ∃ before after, m.print =
      before ++ openTag tag attributes ++ Piece.printAll content ++ closeTag tag ++ after := by
  obtain ⟨depth, hline⟩ := exists_line_of_inline h 0
  obtain ⟨above, below, hlines⟩ := List.append_of_mem hline
  rw [print_eq_of_lines hlines]
  exact ⟨String.join (above.map (· ++ "\n")) ++ margin depth, breakLines below, by
    simp only [String.append_assoc]⟩

end Markup

/-- The texts of a component in markup whose members any table names. -/
structure Descriptor.FallsBack (d : Descriptor) (scene : Scene) (s : Snapshot) (names : Table) :
    Prop where
  text : ∀ i styleClass element n, Blueprint.text i styleClass element n ∈ d.root.elements →
    ∃ characters, scene.get? i = some ⟨n, none⟩ ∧ n.characters = some characters ∧
      (∃ tag before after, d.render s names =
        before ++ Markup.openTag tag (.styleClass styleClass :: listeners (d.eventsOf i)) ++
          Piece.printAll (Piece.ofText s names n) ++ Markup.closeTag tag ++ after) ∧
      (OnlyMembers names (Piece.printAll (Piece.ofText s names n)).toList ↔
        Seamless names characters) ∧
      ∃ items, FallbackItems s names n characters items ∧
        (Seamless names characters →
          Reads (Piece.printAll (Piece.ofText s names n)).toList items)

namespace Identifier.Table

theorem lettered_run (cs : List Call) : (empty.run cs).Lettered := by
  rw [run_eq_assignAll]
  exact lettered_empty.assignAll _

end Identifier.Table

namespace Scene

/-- Whatever names a table holds, a text of a scene shows only members of the table exactly if no
dollar sign in it stands in front of a placeholder without a name; then all else in it is found as
it stands in the scene. -/
theorem components_fall_back {scene : Scene} (hb : scene.Built) {r : NodeId}
    (hr : scene.root = some r) (s : Snapshot) (o : Options) :
    ∃ ds, scene.components s o = .ok ds ∧ ∀ d ∈ ds, ∀ calls : List Identifier.Call,
      d.FallsBack scene s (Table.empty.run calls) := by
  have hf := hb.forest
  obtain ⟨t, ht, hsh, -⟩ := hf.rootTree?_shows hr
  refine ⟨t.components o s, components_of_rootTree? ht s o, fun d hd calls => ⟨?_⟩⟩
  obtain ⟨site, hs, rfl⟩ := List.mem_map.mp hd
  intro i styleClass element n hb
  have hn := Table.lettered_run calls
  obtain ⟨hget, hcharacters⟩ := Tree.get?_of_text (Tree.shows_of_mem_sites hsh hs) hb
  obtain ⟨characters, hc⟩ := Option.isSome_iff_exists.mp hcharacters
  obtain ⟨inButton, hm⟩ : ∃ inButton,
      (site.describe (t.environment o s)).markupOf (Piece.ofText s (Table.empty.run calls)) inButton
        (.text i styleClass element n) ∈
          ((site.describe (t.environment o s)).markup s (Table.empty.run calls)).elements :=
    Descriptor.exists_markup_of_element false hb
  obtain ⟨items, hitems, hreads⟩ := exists_fallbackItems (s := s) hn hc
  obtain ⟨before, after, hrender⟩ := Markup.exists_print_eq_of_inline hm
  refine ⟨characters, hget, hc, ⟨_, before, after, hrender⟩, ⟨?_, fun hseam => ?_⟩, items, hitems,
    hreads⟩
  · exact not_imp_not.mp (not_onlyMembers hn hc)
  · exact ⟨items, hreads hseam, fun e he => hitems.value_eq he⟩

/-- A price with its currency in front of the placeholder. -/
def pricePage : Scene :=
  empty.addRoot (.ofNode { Node.plain .text "Price" with
    characters := some "$\x7b\x7bamount\x7d\x7d" })

theorem pricePage_built : pricePage.Built := Built.empty.addRoot (Slot.fresh_ofNode _)

theorem pricePage_components_fall_back :
    let o : Options := ⟨.single, .isolated, .block⟩
    pricePage.Built ∧ pricePage.root = some 0 ∧
      ∃ ds, pricePage.components .empty o = .ok ds ∧ ∀ d ∈ ds, ∀ calls : List Identifier.Call,
        d.FallsBack pricePage .empty (Table.empty.run calls) :=
  ⟨pricePage_built, rfl, components_fall_back pricePage_built (r := 0) rfl .empty _⟩

/-- Without any names, the dollar sign and the first brace of the placeholder open a substitution. -/
theorem pricePage_not_onlyMembers :
    let o : Options := ⟨.single, .isolated, .block⟩
    pricePage.Built ∧ ∃ d n, pricePage.components .empty o = .ok [d] ∧
      Blueprint.text 0 "price-element" "div" n ∈ d.root.elements ∧
      Piece.printAll (Piece.ofText .empty (Table.empty.run []) n) =
        "$\x7b\x7bamount\x7d\x7d" ∧
      d.render .empty (Table.empty.run []) =
        "<div class=\"price-element\">$\x7b\x7bamount\x7d\x7d</div>" ∧
      ¬ OnlyMembers (Table.empty.run []) "$\x7b\x7bamount\x7d\x7d".toList := by
  refine ⟨pricePage_built, _, _, rfl, List.mem_singleton_self _, by decide +kernel,
    by decide +kernel, ?_⟩
  rintro ⟨items, hreads, hmembers⟩
  have hread : read ("$\x7b\x7bamount\x7d\x7d".toList ++ ['\x60']) =
      some ([.value "\x7bamount".toList, .char '\x7d'], []) := by decide
  obtain ⟨rfl, -⟩ := Prod.mk.inj (Option.some.inj (hread.symm.trans (hreads.read_eq [])))
  obtain ⟨a, name, hname, -⟩ := hmembers _ List.mem_cons_self
  cases hname

end Scene

end DesignComponents
