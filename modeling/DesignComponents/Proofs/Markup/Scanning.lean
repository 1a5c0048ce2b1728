import DesignComponents.Proofs.Markup.Mirroring
import DesignComponents.Proofs.Markup.Texts

/-! Tags that a scanner finds in markup. The scanner knows no elements: a tag is whatever stands
between an opening angle bracket and the next closing one. In the markup of a component it finds
the tags of the elements and nothing else exactly if no text that is shown has an opening angle
bracket. Texts are escaped for the literal that they stand in, and not for the markup. -/

namespace DesignComponents

open Identifier (Lettered Table)

namespace Text

/-- Scans for tags. The state holds the tag that has begun, last character first. -/
def scanTagsFrom : Option (List Char) → List Char → List String
  | _, [] => []
  | none, '<' :: cs => scanTagsFrom (some ['<']) cs
  | none, _ :: cs => scanTagsFrom none cs
  | some t, '>' :: cs => String.ofList ('>' :: t).reverse :: scanTagsFrom none cs
  | some t, c :: cs => scanTagsFrom (some (c :: t)) cs

/-- The tags that a text has for a scanner. -/
def scanTags (text : String) : List String := scanTagsFrom none text.toList

theorem scanTagsFrom_none_cons {c : Char} (h : c ≠ '<') (cs : List Char) :
    scanTagsFrom none (c :: cs) = scanTagsFrom none cs := by
  rw [scanTagsFrom]
  exact fun hc => h hc

theorem scanTagsFrom_some_cons {c : Char} (h : c ≠ '>') (t cs : List Char) :
    scanTagsFrom (some t) (c :: cs) = scanTagsFrom (some (c :: t)) cs := by
  rw [scanTagsFrom]
  exact fun hc => h hc

/-- Text without an opening bracket is passed over. -/
theorem scanTagsFrom_append {text : List Char} (h : '<' ∉ text) (rest : List Char) :
    scanTagsFrom none (text ++ rest) = scanTagsFrom none rest := by
  induction text with
  | nil => rfl
  | cons c text ih =>
    rw [List.mem_cons, not_or] at h
    rw [List.cons_append, scanTagsFrom_none_cons (Ne.symm h.1), ih h.2]

/-- A tag that has begun goes on up to its closing bracket. -/
theorem scanTagsFrom_some_append {body : List Char} (h : '>' ∉ body) (t rest : List Char) :
    scanTagsFrom (some t) (body ++ '>' :: rest) =
      String.ofList (t.reverse ++ body ++ ['>']) :: scanTagsFrom none rest := by
  induction body generalizing t with
  | nil => simp [scanTagsFrom]
  | cons c body ih =>
    rw [List.mem_cons, not_or] at h
    rw [List.cons_append, scanTagsFrom_some_cons (Ne.symm h.1), ih h.2]
    simp

/-- A text that is one tag. -/
def IsTag (text : String) : Prop := ∃ body, text.toList = '<' :: body ++ ['>'] ∧ '>' ∉ body

theorem IsTag.scanTagsFrom_append {text : String} (h : IsTag text) (rest : List Char) :
    scanTagsFrom none (text.toList ++ rest) = text :: scanTagsFrom none rest := by
  obtain ⟨body, htext, hbody⟩ := h
  have hscan := scanTagsFrom_some_append hbody ['<'] rest
  rw [htext, List.append_assoc]
  refine hscan.trans ?_
  congr 1
  rw [← String.toList_inj, htext, String.toList_ofList]
  rfl

/-- If all tags are closed, every opening bracket stands in a tag. -/
theorem count_scanTagsFrom (state : Option (List Char)) (cs : List Char) :
    ((scanTagsFrom state (cs ++ ['>'])).flatMap String.toList).count '<' =
      (state.getD []).count '<' + cs.count '<' := by
  induction cs generalizing state with
  | nil => cases state <;> simp [scanTagsFrom]
  | cons c cs ih =>
    rw [List.cons_append]
    cases state with
    | none =>
      by_cases hc : c = '<'
      · subst hc
        have hscan : scanTagsFrom none ('<' :: (cs ++ ['>'])) = scanTagsFrom (some ['<']) _ := rfl
        rw [hscan, ih]
        simp [Nat.add_comm]
      · rw [scanTagsFrom_none_cons hc, ih, List.count_cons_of_ne hc]
    | some t =>
      by_cases hc : c = '>'
      · subst hc
        rw [scanTagsFrom, List.flatMap_cons, List.count_append, ih]
        simp
      · rw [scanTagsFrom_some_cons hc, ih]
        simp only [Option.getD_some, List.count_cons]
        omega

end Text

/-! ### The tags of markup -/

namespace Mark

def piece? : Mark → Option Piece
  | piece p => some p
  | _ => none

/-- The text of a mark that is a tag. -/
def tag? (k : Mark) : Option String := if k.piece?.isSome then none else some k.text

@[simp] theorem tag?_opening (o : Opening) :
    (opening o).tag? = some (Markup.openTag o.tag o.attributes) := congrArg some (text_opening o)

@[simp] theorem tag?_piece (p : Piece) : (piece p).tag? = none := rfl

@[simp] theorem tag?_closing (tag : String) : (closing tag).tag? = some (Markup.closeTag tag) := rfl

theorem notMem_newLine (depth : Nat) : '<' ∉ (newLine depth).toList := by
  intro h
  rw [newLine, String.toList_append, List.mem_append] at h
  rcases h with h | h
  · exact absurd h (by decide)
  · rw [String.toList_ofList] at h
    exact absurd (List.eq_of_mem_replicate h) (by decide)

/-- In front of a mark there is at most a line break with a margin. -/
theorem exists_layout_cons (depth : Nat) (before : Option Mark) (k : Mark) (ms : List Mark) :
    ∃ (space : String) (depth' : Nat), '<' ∉ space.toList ∧
      layout depth before (k :: ms) = space ++ k.text ++ layout depth' (some k) ms := by
  have hspace : ∀ (b : Bool) d, '<' ∉ (if b then newLine d else "").toList := by
    intro b d
    cases b with
    | false => exact List.not_mem_nil
    | true => exact notMem_newLine d
  cases k with
  | opening o => exact ⟨_, depth + 1, hspace before.isSome depth, rfl⟩
  | piece p => exact ⟨"", depth, List.not_mem_nil, by rw [layout, String.empty_append]⟩
  | closing tag => exact ⟨_, depth - 1, hspace (before.any isClosing) (depth - 1), rfl⟩

variable {ms : List Mark}

/-- A scanner finds the tags of marks if no piece of text can begin one. -/
theorem scanTagsFrom_layout (htags : ∀ k ∈ ms, ∀ tag, k.tag? = some tag → Text.IsTag tag)
    (hpieces : ∀ p, piece p ∈ ms → '<' ∉ p.print.toList) (depth : Nat) (before : Option Mark) :
    Text.scanTagsFrom none (layout depth before ms).toList = ms.filterMap tag? := by
  induction ms generalizing depth before with
  | nil => rfl
  | cons k ms ih =>
    have hrest := ih (fun k hk => htags k (List.mem_cons_of_mem _ hk))
      (fun p hp => hpieces p (List.mem_cons_of_mem _ hp))
    obtain ⟨space, depth', hspace, hlayout⟩ := exists_layout_cons depth before k ms
    rw [hlayout, String.append_assoc, String.toList_append, String.toList_append,
      Text.scanTagsFrom_append hspace]
    cases k with
    | piece p =>
      rw [text_piece, Text.scanTagsFrom_append (hpieces p List.mem_cons_self), hrest]
      rfl
    | opening | closing =>
      have htag := htags _ List.mem_cons_self _ rfl
      rw [htag.scanTagsFrom_append, hrest]
      rfl

/-- Every opening bracket of a layout stands in a mark. -/
theorem count_layout (depth : Nat) (before : Option Mark) :
    (layout depth before ms).toList.count '<' = (ms.flatMap fun k => k.text.toList).count '<' := by
  induction ms generalizing depth before with
  | nil => rfl
  | cons k ms ih =>
    obtain ⟨space, depth', hspace, hlayout⟩ := exists_layout_cons depth before k ms
    rw [hlayout, String.toList_append, String.toList_append, List.count_append, List.count_append,
      List.count_eq_zero.mpr hspace, Nat.zero_add, ih, List.flatMap_cons, List.count_append]

/-- The text of marks that end in a closing tag ends in its bracket. -/
theorem exists_layout_concat (depth : Nat) (before : Option Mark) (tag : String) :
    ∃ cs, (layout depth before (ms ++ [closing tag])).toList = cs ++ ['>'] := by
  induction ms generalizing depth before with
  | nil =>
    obtain ⟨space, depth', -, hlayout⟩ := exists_layout_cons depth before (closing tag) []
    refine ⟨(space ++ "</" ++ tag).toList, ?_⟩
    rw [List.nil_append, hlayout]
    simp [Markup.closeTag, layout]
  | cons k ms ih =>
    obtain ⟨space, depth', -, hlayout⟩ := exists_layout_cons depth before k (ms ++ [closing tag])
    obtain ⟨cs, hcs⟩ := ih depth' (some k)
    refine ⟨(space ++ k.text).toList ++ cs, ?_⟩
    rw [List.cons_append, hlayout, String.toList_append, hcs, List.append_assoc]

/-- The characters of marks are those of their tags and of their pieces. -/
theorem count_marks (c : Char) (ms : List Mark) :
    (ms.flatMap fun k => k.text.toList).count c =
      ((ms.filterMap tag?).flatMap String.toList).count c +
        ((ms.filterMap piece?).flatMap fun p => p.print.toList).count c := by
  induction ms with
  | nil => rfl
  | cons k ms ih =>
    rw [List.flatMap_cons, List.count_append, ih]
    cases k with
    | piece p =>
      have hpiece : piece? (piece p) = some p := rfl
      rw [List.filterMap_cons_none (tag?_piece p), List.filterMap_cons_some hpiece,
        List.flatMap_cons, List.count_append, text_piece]
      omega
    | opening | closing =>
      rw [← Nat.add_assoc, ← List.count_append]
      rfl

/-- If a scanner finds nothing but the tags of marks, then no piece of text can begin one. -/
theorem notMem_of_scanTagsFrom_layout {depth : Nat} {before : Option Mark} {cs : List Char}
    (hend : (layout depth before ms).toList = cs ++ ['>'])
    (h : Text.scanTagsFrom none (layout depth before ms).toList = ms.filterMap tag?) {p : Piece}
    (hp : piece p ∈ ms) : '<' ∉ p.print.toList := by
  have hfound : ((ms.filterMap tag?).flatMap String.toList).count '<' = cs.count '<' := by
    rw [← h, hend, Text.count_scanTagsFrom]
    simp
  have hall : (layout depth before ms).toList.count '<' = cs.count '<' := by
    rw [hend]
    simp
  rw [count_layout, count_marks, hfound] at hall
  have hnone : ((ms.filterMap piece?).flatMap fun p => p.print.toList).count '<' = 0 := by omega
  have hpiece : p ∈ ms.filterMap piece? := List.mem_filterMap.mpr ⟨_, hp, rfl⟩
  exact fun hm => List.count_eq_zero.mp hnone (List.mem_flatMap.mpr ⟨p, hpiece, hm⟩)

end Mark

/-! ### Tags and names -/

/-- Neither bracket is a character of names. -/
theorem Identifier.Lettered.angle_notMem {name : String} (h : Lettered name) :
    '<' ∉ name.toList ∧ '>' ∉ name.toList :=
  ⟨h.notMem (by decide), h.notMem (by decide)⟩

theorem angle_notMem_substitution {name : String} (h : Lettered name) :
    '<' ∉ (substitution name).toList ∧ '>' ∉ (substitution name).toList := by
  simp [substitution, h.angle_notMem]

theorem Attribute.angle_notMem_print {a : Attribute} (h : ∀ name ∈ a.names, Lettered name) :
    '>' ∉ a.print.toList := by
  cases a with
  | styleClass value =>
    have hv := (h value (by simp [names])).angle_notMem
    simp [print, hv]
  | listener event handler =>
    have he := (h event (by simp [names])).angle_notMem
    have hh := angle_notMem_substitution (h handler (by simp [names]))
    simp [print, he, hh]
  | binding name =>
    have hn := h name (by simp [names])
    simp [print, hn.angle_notMem, angle_notMem_substitution hn]

namespace Markup

theorem isTag_openTag {tag : String} {attributes : List Attribute}
    (h : ∀ name ∈ tag :: attributes.flatMap Attribute.names, Lettered name) :
    Text.IsTag (openTag tag attributes) := by
  rw [List.forall_mem_cons] at h
  refine ⟨(tag ++ String.join (attributes.map Attribute.print)).toList, by simp [openTag], ?_⟩
  rw [String.toList_append, List.mem_append, not_or, String.toList_join]
  refine ⟨h.1.angle_notMem.2, fun hm => ?_⟩
  obtain ⟨l, hl, hm⟩ := List.mem_flatMap.mp hm
  obtain ⟨a, ha, rfl⟩ := List.mem_map.mp hl
  have hnames := fun name hn => h.2 name (List.mem_flatMap.mpr ⟨a, ha, hn⟩)
  exact Attribute.angle_notMem_print hnames hm

theorem isTag_closeTag {tag : String} (h : Lettered tag) : Text.IsTag (closeTag tag) := by
  refine ⟨("/" ++ tag).toList, by simp [closeTag], ?_⟩
  simp [h.angle_notMem]

/-- Every mark belongs to an element. -/
theorem mem_marks {m : Markup} {k : Mark} :
    k ∈ m.marks ↔ ∃ m' ∈ m.elements, k = .opening ⟨m'.tag, m'.attributes⟩ ∨
      (∃ p ∈ m'.content, k = .piece p) ∨ k = .closing m'.tag := by
  induction m with
  | inline tag attributes content =>
    simp [marks, elements, Markup.tag, Markup.attributes, Markup.content, eq_comm]
  | block tag attributes children ih =>
    rw [marks, marksAll_eq, List.mem_append, List.mem_cons, List.mem_flatMap]
    constructor
    · rintro ((rfl | ⟨c, hc, hk⟩) | hk)
      · exact ⟨_, self_mem_elements _, .inl rfl⟩
      · obtain ⟨m', hm', h⟩ := (ih c hc).mp hk
        exact ⟨m', mem_elements_block.mpr (.inr ⟨c, hc, hm'⟩), h⟩
      · exact ⟨_, self_mem_elements _, .inr (.inr (List.mem_singleton.mp hk))⟩
    · rintro ⟨m', hm', h⟩
      rcases mem_elements_block.mp hm' with rfl | ⟨c, hc, hm'⟩
      · rcases h with rfl | ⟨p, hp, -⟩ | rfl
        · exact .inl (.inl rfl)
        · cases hp
        · exact .inr (List.mem_singleton_self _)
      · exact .inl (.inr ⟨c, hc, (ih c hc).mpr ⟨m', hm', h⟩⟩)

/-- Markup ends in a closing tag. -/
theorem exists_print_eq (m : Markup) : ∃ cs, m.print.toList = cs ++ ['>'] := by
  have hmarks : ∃ ms, m.marks = ms ++ [.closing m.tag] := by
    cases m <;> exact ⟨_, rfl⟩
  obtain ⟨ms, hms⟩ := hmarks
  rw [print_eq_layout, hms]
  exact Mark.exists_layout_concat 0 none m.tag

/-- A scanner finds the tags of markup and nothing else exactly if no text can begin a tag. -/
theorem scanTags_print_iff {m : Markup}
    (hnames : ∀ m' ∈ m.elements, ∀ name ∈ m'.names, Lettered name) :
    Text.scanTags m.print = m.marks.filterMap Mark.tag? ↔
      ∀ m' ∈ m.elements, ∀ p ∈ m'.content, '<' ∉ p.print.toList := by
  have htags : ∀ k ∈ m.marks, ∀ tag, k.tag? = some tag → Text.IsTag tag := by
    intro k hk tag htag
    obtain ⟨m', hm', rfl | ⟨p, -, rfl⟩ | rfl⟩ := mem_marks.mp hk
    · rw [← Option.some.inj ((Mark.tag?_opening _).symm.trans htag)]
      exact isTag_openTag (hnames m' hm')
    · cases htag
    · cases htag
      exact isTag_closeTag (hnames m' hm' _ List.mem_cons_self)
  obtain ⟨cs, hend⟩ := m.exists_print_eq
  rw [print_eq_layout] at hend
  rw [Text.scanTags, print_eq_layout]
  constructor
  · intro h m' hm' p hp
    have hmark := mem_marks.mpr ⟨m', hm', .inr (.inl ⟨p, hp, rfl⟩)⟩
    exact Mark.notMem_of_scanTagsFrom_layout hend h hmark
  · intro h
    refine Mark.scanTagsFrom_layout htags (fun p hp => ?_) 0 none
    obtain ⟨m', hm', hk | ⟨p', hp', hk⟩ | hk⟩ := mem_marks.mp hp
    · cases hk
    · cases hk
      exact h m' hm' p hp'
    · cases hk

theorem filterMap_tag?_inline (tag : String) (attributes : List Attribute)
    (content : List Piece) :
    (inline tag attributes content).marks.filterMap Mark.tag? =
      [openTag tag attributes, closeTag tag] := by
  have hpieces : (content.map Mark.piece).filterMap Mark.tag? = [] := by
    rw [List.filterMap_map]
    exact List.filterMap_eq_nil_iff.mpr fun p _ => rfl
  have hopening := Mark.tag?_opening ⟨tag, attributes⟩
  rw [marks, List.filterMap_append, List.filterMap_cons_some hopening, hpieces]
  rfl

theorem filterMap_tag?_block (tag : String) (attributes : List Attribute)
    (children : List Markup) :
    (block tag attributes children).marks.filterMap Mark.tag? =
      openTag tag attributes :: children.flatMap (fun m => m.marks.filterMap Mark.tag?) ++
        [closeTag tag] := by
  have hopening := Mark.tag?_opening ⟨tag, attributes⟩
  rw [marks, marksAll_eq, List.filterMap_append, List.filterMap_cons_some hopening,
    List.filterMap_flatMap]
  rfl

end Markup

namespace Descriptor

/-- The tags of an element around those inside of it. -/
def around (d : Descriptor) (inButton : Bool) (origin : NodeId) (styleClass element : String)
    (inside : List String) : List String :=
  let tag := d.tagIn inButton origin element
  Markup.openTag tag (.styleClass styleClass :: listeners (d.eventsOf origin)) :: inside ++
    [Markup.closeTag tag]

mutual

/-- The opening and closing tags of the elements, in the order of the markup. -/
def tagsOf (d : Descriptor) (inButton : Bool) : Blueprint → List String
  | .boundary _ tag bindings =>
    [Markup.openTag tag (bindings.map .binding), Markup.closeTag tag]
  | .text origin styleClass element _ => d.around inButton origin styleClass element []
  | .label origin styleClass _ => d.around inButton origin styleClass Blueprint.division []
  | .container origin styleClass children =>
    d.around inButton origin styleClass Blueprint.division
      (tagsOfAll d (inButton || (!(d.eventsOf origin).isEmpty && !inButton)) children)

def tagsOfAll (d : Descriptor) (inButton : Bool) : List Blueprint → List String
  | [] => []
  | b :: bs => tagsOf d inButton b ++ tagsOfAll d inButton bs

end

/-- The tags of a component. -/
def tags (d : Descriptor) : List String := d.tagsOf false d.root

theorem tagsOfAll_eq (d : Descriptor) (inButton : Bool) (bs : List Blueprint) :
    d.tagsOfAll inButton bs = bs.flatMap (d.tagsOf inButton) := by
  induction bs with
  | nil => rfl
  | cons b bs ih => rw [tagsOfAll, ih, List.flatMap_cons]

/-- The marks of markup that are tags are those of the elements. -/
theorem filterMap_tag?_markupOf {d : Descriptor} {textOf : Node → List Piece} (inButton : Bool)
    (b : Blueprint) :
    (d.markupOf textOf inButton b).marks.filterMap Mark.tag? = d.tagsOf inButton b := by
  induction b generalizing inButton with
  | boundary | text | label =>
    rw [markupOf, Markup.filterMap_tag?_inline]
    rfl
  | container origin styleClass children ih =>
    rw [markupOf, Markup.filterMap_tag?_block, markupOfAll_eq, List.flatMap_map, tagsOf,
      tagsOfAll_eq]
    have hchildren := List.flatMap_congr fun c hc =>
      ih c hc (inButton || (!(d.eventsOf origin).isEmpty && !inButton))
    rw [hchildren]
    rfl

end Descriptor

/-! ### The texts that are shown -/

theorem Text.mem_escapeTemplate {c : Char} (h : c ≠ '\\') (text : List Char) :
    c ∈ Text.escapeTemplate text ↔ c ∈ text := by
  fun_induction Text.escapeTemplate text <;> simp_all

namespace Piece

/-- The text that a piece shows as it is. -/
def literal? : Piece → Option String
  | literal text => some text
  | member _ => none

theorem angle_notMem_print_literal {text : String} :
    '<' ∉ (literal text).print.toList ↔ '<' ∉ text.toList := by
  rw [print, Text.templateText, String.toList_ofList, Text.mem_escapeTemplate (by decide)]

end Piece

/-- The texts that stand as they are in what a text is bound to. -/
def Binding.literals : Binding → List String
  | .placeholders segments => segments.filterMap fun
    | .literal text => some text
    | .placeholder _ => none
  | .property _ => []
  | .variable _ _ => []
  | .literal text => [text]

theorem Piece.filterMap_literal?_ofText {s : Snapshot} {names : Table} {n : Node}
    (h : ∀ a ∈ (Binding.classify s n).entities, ∃ name, names.lookup .member a = some name) :
    (Piece.ofText s names n).filterMap Piece.literal? = (Binding.classify s n).literals := by
  rw [Piece.ofText_eq_pieces h]
  cases Binding.classify s n with
  | placeholders segments =>
    simp only [Binding.pieces, Binding.literals, List.filterMap_map]
    refine List.filterMap_congr fun segment _ => ?_
    cases segment <;> rfl
  | property _ | «variable» _ _ | literal _ => rfl

/-- The texts of the scene that an element shows as they are. -/
def Blueprint.shown (s : Snapshot) : Blueprint → List String
  | boundary _ _ _ => []
  | text _ _ _ n => (Binding.classify s n).literals
  | label _ _ name => [name]
  | container _ _ _ => []

namespace Descriptor

/-- A scanner finds the tags of the elements in the markup, and nothing else. -/
def KeepsTags (d : Descriptor) (s : Snapshot) (names : Table) : Prop :=
  Text.scanTags (d.render s names) = d.tags

/-- The pieces of text in an element of the markup. -/
theorem filterMap_literal?_content {d : Descriptor} {s : Snapshot} {names : Table}
    (hits : ∀ i styleClass element n, Blueprint.text i styleClass element n ∈ d.root.elements →
      ∀ a ∈ (Binding.classify s n).entities, ∃ name, names.lookup .member a = some name)
    {b : Blueprint} (hb : b ∈ d.root.elements) (inButton : Bool) :
    (d.markupOf (Piece.ofText s names) inButton b).content.filterMap Piece.literal? =
      b.shown s := by
  cases b with
  | text i styleClass element n =>
    exact Piece.filterMap_literal?_ofText (hits _ _ _ _ hb)
  | boundary | label | container =>
    rw [markupOf]
    rfl

end Descriptor

namespace Tree

variable {o : Options} {s : Snapshot} {t : Tree}

theorem keepsTags_iff_of_mem_sites {site : Site} (hs : site ∈ t.sites o) :
    (site.describe (t.environment o s)).KeepsTags s (t.plan o s) ↔
      ∀ b ∈ (site.describe (t.environment o s)).root.elements, ∀ text ∈ b.shown s,
        '<' ∉ text.toList := by
  set d := site.describe (t.environment o s)
  set names := t.plan o s
  have hliterals : ∀ {b}, b ∈ d.root.elements → ∀ inButton,
      (d.markupOf (Piece.ofText s names) inButton b).content.filterMap Piece.literal? = b.shown s :=
    Descriptor.filterMap_literal?_content fun _ _ _ _ hn _ ha => exists_lookup_of_text hs hn ha
  have htags : (d.markup s names).marks.filterMap Mark.tag? = d.tags :=
    Descriptor.filterMap_tag?_markupOf false d.root
  have hscan := Markup.scanTags_print_iff (m := d.markup s names)
    fun m hm => lettered_markup site names hm
  rw [htags] at hscan
  refine hscan.trans ⟨fun h b hb text htext => ?_, fun h m hm p hp => ?_⟩
  · obtain ⟨inButton, hm⟩ := Descriptor.exists_markup_of_element false hb
    rw [← hliterals hb inButton] at htext
    obtain ⟨p, hp, hl⟩ := List.mem_filterMap.mp htext
    have hprint := h _ hm p hp
    cases p with
    | literal text' =>
      cases hl
      exact Piece.angle_notMem_print_literal.mp hprint
    | member name => cases hl
  · obtain ⟨b, hb, inButton, rfl⟩ := Descriptor.exists_element_of_markup hm
    cases p with
    | literal text =>
      have htext : text ∈ b.shown s := by
        rw [← hliterals hb inButton]
        exact List.mem_filterMap.mpr ⟨_, hp, rfl⟩
      exact Piece.angle_notMem_print_literal.mpr (h b hb text htext)
    | member name =>
      have hname := mem_propertyNames_of_member hs hm hp
      exact (angle_notMem_substitution (lettered_of_mem_propertyNames hname)).1

end Tree

namespace Scene

/-- The markup of a component has the tags of its elements and no others exactly if no text that it
shows, be it of a text node or a display name, has an opening angle bracket. -/
theorem components_keep_tags_iff {scene : Scene} (hb : scene.Built) {r : NodeId}
    (hr : scene.root = some r) (s : Snapshot) (o : Options) :
    ∃ t, scene.rootTree? = some t ∧ scene.components s o = .ok (t.components o s) ∧
      ∀ d ∈ t.components o s, d.KeepsTags s (t.plan o s) ↔
        ∀ b ∈ d.root.elements, ∀ text ∈ b.shown s, '<' ∉ text.toList := by
  obtain ⟨t, ht, -⟩ := hb.forest.rootTree?_shows hr
  refine ⟨t, ht, components_of_rootTree? ht s o, fun d hd => ?_⟩
  obtain ⟨site, hs, rfl⟩ := List.mem_map.mp hd
  exact Tree.keepsTags_iff_of_mem_sites hs

/-- A page with terms, and with a rule that is called by the tag of one. -/
def termsPage : Scene :=
  let page := empty.addRoot (.ofNode (.plain .frame "Page"))
  let terms := page.addChild 0 (.ofNode (.plain .frame "Terms"))
  let clause := terms.addChild 1
    (.ofNode { Node.plain .text "Clause" with characters := some "a > \x7b\x7bb\x7d\x7d" })
  clause.addChild 0 (.ofNode (.plain .shape "<hr>"))

theorem termsPage_built : termsPage.Built :=
  (((Built.empty.addRoot (Slot.fresh_ofNode _)).addChild (Slot.fresh_ofNode _) (by decide)).addChild
    (Slot.fresh_ofNode _) (by decide)).addChild (Slot.fresh_ofNode _) (by decide)

theorem termsPage_components_keep_tags_iff :
    let o : Options := ⟨.multi, .isolated, .block⟩
    termsPage.Built ∧ termsPage.root = some 0 ∧
      ∃ t, termsPage.rootTree? = some t ∧
        termsPage.components .empty o = .ok (t.components o .empty) ∧
        ∀ d ∈ t.components o .empty, d.KeepsTags .empty (t.plan o .empty) ↔
          ∀ b ∈ d.root.elements, ∀ text ∈ b.shown .empty, '<' ∉ text.toList :=
  ⟨termsPage_built, rfl, components_keep_tags_iff termsPage_built (r := 0) rfl .empty _⟩

/-- The name of the rule adds an element to the page. -/
theorem termsPage_gains_tag :
    let o : Options := ⟨.multi, .isolated, .block⟩
    termsPage.Built ∧ ∃ t, termsPage.rootTree? = some t ∧
      termsPage.components .empty o = .ok (t.components o .empty) ∧
      ∃ d ∈ t.components o .empty, "<hr>" ∈ Text.scanTags (d.render .empty (t.plan o .empty)) ∧
        "<hr>" ∉ d.tags ∧ ¬ d.KeepsTags .empty (t.plan o .empty) := by
  intro o
  obtain ⟨t, d, ht, hd, hfound, htags⟩ : ∃ t d, termsPage.rootTree? = some t ∧
      (t.components o .empty).head? = some d ∧
      "<hr>" ∈ Text.scanTags (d.render .empty (t.plan o .empty)) ∧ "<hr>" ∉ d.tags :=
    ⟨_, _, rfl, rfl, by decide +kernel, by decide +kernel⟩
  refine ⟨termsPage_built, t, ht, components_of_rootTree? ht .empty o, d,
    List.mem_of_head? hd, hfound, htags, fun hkeeps => htags ?_⟩
  rwa [← show Text.scanTags (d.render .empty (t.plan o .empty)) = d.tags from hkeeps]

end Scene

end DesignComponents
