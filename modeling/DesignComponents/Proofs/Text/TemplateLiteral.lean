import DesignComponents.Text.Literal
import Mathlib.Data.List.Basic
import Mathlib.Tactic.Common

/-! Reading template literals. A reader that knows nothing of escaping takes a backslash for the
character behind it, a dollar sign with an opening brace for a substitution, and a grave accent
for the end. It finds an escaped text unchanged, wherever the text stands, unless an opening
brace follows: only then could a dollar sign at the end open a substitution. -/

namespace DesignComponents.Text.TemplateLiteral

/-- A character of the text, or a substitution with the expression between its braces. -/
inductive Item where
  | char (c : Char)
  | value (expression : List Char)
  deriving DecidableEq, Repr

def chars (text : List Char) : List Item := text.map .char

@[simp] theorem chars_nil : chars [] = [] := rfl

@[simp] theorem chars_cons (c : Char) (cs : List Char) :
    chars (c :: cs) = .char c :: chars cs := rfl

/-- The expression of a substitution. -/
def Item.expression? : Item → Option (List Char)
  | .char _ => none
  | .value e => some e

/-- What the items put in, in order. -/
def expressions (items : List Item) : List (List Char) := items.filterMap Item.expression?

@[simp] theorem expressions_chars (text : List Char) : expressions (chars text) = [] := by
  simp [expressions, chars, Item.expression?]

@[simp] theorem expressions_append (p q : List Item) :
    expressions (p ++ q) = expressions p ++ expressions q := List.filterMap_append

/-- A reading with items in front of it. -/
def found (items : List Item) (r : List Item × List Char) : List Item × List Char :=
  (items ++ r.1, r.2)

theorem found_comp (p q : List Item) : found p ∘ found q = found (p ++ q) := by
  funext r
  simp [found]

theorem found_nil : found [] = id := rfl

theorem exists_of_map_found {r : Option (List Item × List Char)} {p items : List Item}
    {rest : List Char} (h : r.map (found p) = some (items, rest)) :
    ∃ items', r = some (items', rest) ∧ items = p ++ items' := by
  obtain ⟨⟨items', rest'⟩, rfl, he⟩ := Option.map_eq_some_iff.mp h
  obtain ⟨rfl, rfl⟩ := Prod.mk.inj he
  exact ⟨items', rfl, rfl⟩

/-- Reads the inside of a literal up to its end, and gives what was found with the source behind
the end. In a substitution the state holds the expression so far, last character first. -/
def readFrom : Option (List Char) → List Char → Option (List Item × List Char)
  | _, [] => none
  | none, '\x60' :: cs => some ([], cs)
  | none, '\\' :: c :: cs => (readFrom none cs).map (found [.char c])
  | none, '$' :: '{' :: cs => readFrom (some []) cs
  | none, c :: cs => (readFrom none cs).map (found [.char c])
  | some e, '}' :: cs => (readFrom none cs).map (found [.value e.reverse])
  | some e, c :: cs => readFrom (some (c :: e)) cs

def read (source : List Char) : Option (List Item × List Char) := readFrom none source

theorem read_accent (rest : List Char) : read ('\x60' :: rest) = some ([], rest) := rfl

theorem read_backslash (c : Char) (rest : List Char) :
    read ('\\' :: c :: rest) = (read rest).map (found [.char c]) := rfl

theorem read_char {c : Char} {rest : List Char} (hb : c ≠ '\\') (ha : c ≠ '\x60')
    (hd : c = '$' → rest.head? ≠ some '{') :
    read (c :: rest) = (read rest).map (found [.char c]) := by
  rw [read, readFrom]
  · rfl
  · exact fun he => ha he
  · exact fun _ _ he => absurd he hb
  · rintro cs hc rfl
    exact hd hc rfl

theorem readFrom_value {e : List Char} (h : '}' ∉ e) (before rest : List Char) :
    readFrom (some before) (e ++ '}' :: rest) =
      (read rest).map (found [.value (before.reverse ++ e)]) := by
  induction e generalizing before with
  | nil => simp [readFrom, read]
  | cons c e ih =>
    rw [List.mem_cons, not_or] at h
    rw [List.cons_append, readFrom]
    · rw [ih h.2, List.reverse_cons, List.append_assoc, List.singleton_append]
    · exact fun hc => h.1 hc.symm

/-! ### Source that reads as items -/

/-- Wherever the source stands, these items are found in it and the reader goes on behind it. Only
an opening brace must not follow where the source ends in a dollar sign. -/
def Reads (source : List Char) (items : List Item) : Prop :=
  ∀ rest, (source.getLast? = some '$' → rest.head? ≠ some '{') →
    read (source ++ rest) = (read rest).map (found items)

theorem reads_nil : Reads [] [] := by
  intro rest _
  rw [found_nil, Option.map_id]
  rfl

theorem Reads.append {a b : List Char} {p q : List Item} (ha : Reads a p) (hb : Reads b q)
    (h : a.getLast? = some '$' → b.head? ≠ some '{') : Reads (a ++ b) (p ++ q) := by
  intro rest hrest
  have hhead : a.getLast? = some '$' → (b ++ rest).head? ≠ some '{' := by
    cases b with
    | nil => rwa [List.append_nil] at hrest
    | cons c b => exact h
  have hlast : b.getLast? = some '$' → rest.head? ≠ some '{' := by
    intro hb
    exact hrest (by rw [List.getLast?_append, hb, Option.some_or])
  rw [List.append_assoc, ha _ hhead, hb _ hlast, Option.map_map, found_comp]

/-- A literal with this source holds these items. -/
theorem Reads.read_eq {source : List Char} {items : List Item} (h : Reads source items)
    (rest : List Char) : read (source ++ '\x60' :: rest) = some (items, rest) := by
  rw [h _ (by simp), read_accent]
  simp [found]

theorem reads_char {c : Char} (hb : c ≠ '\\') (ha : c ≠ '\x60') : Reads [c] [.char c] := by
  intro rest hrest
  exact read_char hb ha fun hc => hrest (by rw [hc, List.getLast?_singleton])

theorem reads_backslash (c : Char) : Reads ['\\', c] [.char c] := fun rest _ =>
  read_backslash c rest

theorem reads_value {e : List Char} (h : '}' ∉ e) :
    Reads ('$' :: '{' :: e ++ ['}']) [.value e] := by
  intro rest _
  have hread : read ('$' :: '{' :: e ++ ['}'] ++ rest) = readFrom (some []) (e ++ '}' :: rest) := by
    rw [List.append_assoc]
    rfl
  rw [hread, readFrom_value h, List.reverse_nil, List.nil_append]

theorem head?_escapeTemplate {cs : List Char} (h : (escapeTemplate cs).head? = some '{') :
    cs.head? = some '{' := by
  fun_cases escapeTemplate cs with
  | case1 => simp [escapeTemplate] at h
  | case2 cs => simp [escapeTemplate] at h
  | case3 cs => simp [escapeTemplate] at h
  | case4 cs => simp [escapeTemplate] at h
  | case5 c cs hb ha hd => rwa [escapeTemplate.eq_5 c cs hb ha hd, List.head?_cons] at h

theorem getLast?_escapeTemplate (cs : List Char) : (escapeTemplate cs).getLast? = cs.getLast? := by
  fun_induction escapeTemplate cs with
  | case1 => rfl
  | case2 cs ih | case3 cs ih | case4 cs ih | case5 c cs hb ha hd ih =>
    simp only [List.getLast?_cons, ih, Option.getD_some]

/-- An escaped text reads as the text. -/
theorem reads_escapeTemplate (text : List Char) : Reads (escapeTemplate text) (chars text) := by
  fun_induction escapeTemplate text with
  | case1 => exact reads_nil
  | case2 cs ih => exact (reads_backslash '\\').append ih (by simp)
  | case3 cs ih => exact (reads_backslash '\x60').append ih (by simp)
  | case4 cs ih =>
    have hbrace : Reads ['{'] [.char '{'] := reads_char (by decide) (by decide)
    have hpair : Reads ['\\', '$', '{'] [.char '$', .char '{'] := by
      intro rest _
      have hrest := hbrace rest (by simp)
      rw [List.cons_append, List.cons_append, read_backslash, hrest, Option.map_map, found_comp]
      rfl
    exact hpair.append ih (by simp)
  | case5 c cs hb ha hd ih =>
    refine (reads_char hb ha).append ih fun hc hhead => ?_
    -- a dollar sign was left alone, so no brace stands behind it
    obtain ⟨cs', rfl⟩ := List.head?_eq_some_iff.mp (head?_escapeTemplate hhead)
    exact hd cs' (Option.some.inj hc) rfl

/-- A dollar sign in front of a substitution stands for itself. -/
example : read "\\\x60$$\x7bthis.price\x7d\\\x60\x60;".toList =
    some ([.char '\x60', .char '$', .value "this.price".toList, .char '\x60'], [';']) := by decide

/-- Source that the literal reads to its end, whatever follows, and that puts in these
expressions. -/
structure Puts (source : List Char) (es : List (List Char)) : Prop where
  getLast?_ne : source.getLast? ≠ some '$'
  reads : ∃ items, Reads source items ∧ expressions items = es

theorem puts_nil : Puts [] [] := ⟨by simp, [], reads_nil, rfl⟩

theorem Puts.append {a b : List Char} {es es' : List (List Char)} (ha : Puts a es)
    (hb : Puts b es') : Puts (a ++ b) (es ++ es') := by
  obtain ⟨p, hp, rfl⟩ := ha.reads
  obtain ⟨q, hq, rfl⟩ := hb.reads
  refine ⟨fun h => ?_, p ++ q, hp.append hq fun h => absurd h ha.getLast?_ne,
    expressions_append p q⟩
  rw [List.getLast?_append, Option.or_eq_some_iff] at h
  rcases h with h | ⟨-, h⟩
  · exact hb.getLast?_ne h
  · exact ha.getLast?_ne h

theorem Puts.toList_append {a b : String} {es es' : List (List Char)} (ha : Puts a.toList es)
    (hb : Puts b.toList es') : Puts (a ++ b).toList (es ++ es') := by
  rw [String.toList_append]
  exact ha.append hb

/-- Behind a text anything may follow once there is a character that is no opening brace. -/
theorem Reads.puts_append {a b : List Char} {p : List Item} {c : Char} {es : List (List Char)}
    (ha : Reads a p) (hb : Puts (c :: b) es) (hc : c ≠ '{') :
    Puts (a ++ c :: b) (expressions p ++ es) := by
  obtain ⟨q, hq, rfl⟩ := hb.reads
  refine ⟨fun h => ?_, p ++ q, ha.append hq fun _ he => hc (Option.some.inj he),
    expressions_append p q⟩
  rw [List.getLast?_append_cons] at h
  exact hb.getLast?_ne h

theorem puts_join {α : Type} {f : α → String} {g : α → List (List Char)} {l : List α}
    (h : ∀ a ∈ l, Puts (f a).toList (g a)) : Puts (String.join (l.map f)).toList (l.flatMap g) := by
  induction l with
  | nil => exact puts_nil
  | cons a l ih =>
    rw [List.forall_mem_cons] at h
    rw [List.map_cons, String.join_cons, List.flatMap_cons]
    exact h.1.toList_append (ih h.2)

/-- A character that a literal never acts on. -/
def isOrdinary (c : Char) : Bool := c ≠ '\\' && c ≠ '\x60' && c ≠ '$'

theorem puts_of_ordinary {cs : List Char} (h : cs.all isOrdinary = true) : Puts cs [] := by
  induction cs with
  | nil => exact puts_nil
  | cons c cs ih =>
    rw [List.all_cons, Bool.and_eq_true] at h
    obtain ⟨hc, hcs⟩ := h
    simp only [isOrdinary, Bool.and_eq_true, decide_eq_true_eq] at hc
    have hchar : Puts [c] [] := ⟨by simpa using hc.2, _, reads_char hc.1.1 hc.1.2, rfl⟩
    exact hchar.append (ih hcs)

theorem puts_value {e : List Char} (h : '}' ∉ e) : Puts ('$' :: '{' :: e ++ ['}']) [e] :=
  ⟨by rw [List.getLast?_concat]; decide, _, reads_value h, rfl⟩

/-- Source that the literal reads to its end, whatever it puts in. -/
def Readable (source : List Char) : Prop := ∃ es, Puts source es

theorem Readable.toList_append {a b : String} (ha : Readable a.toList) (hb : Readable b.toList) :
    Readable (a ++ b).toList := by
  obtain ⟨es, ha⟩ := ha
  obtain ⟨es', hb⟩ := hb
  exact ⟨_, ha.toList_append hb⟩

theorem readable_join {ls : List String} (h : ∀ l ∈ ls, Readable l.toList) :
    Readable (String.join ls).toList := by
  induction ls with
  | nil => exact ⟨[], puts_nil⟩
  | cons l ls ih =>
    rw [List.forall_mem_cons] at h
    rw [String.join_cons]
    exact h.1.toList_append (ih h.2)

/-! ### Plain texts -/

/-- A text that needs no escaping. -/
def Plain (text : List Char) : Prop := escapeTemplate text = text

instance (text : List Char) : Decidable (Plain text) :=
  inferInstanceAs (Decidable (escapeTemplate text = text))

theorem length_le_escapeTemplate (text : List Char) :
    text.length ≤ (escapeTemplate text).length := by
  fun_induction escapeTemplate text with
  | case1 => exact Nat.le_refl _
  | case2 cs ih | case3 cs ih | case4 cs ih | case5 cs ih =>
    simp only [List.length_cons]
    omega

theorem plain_nil : Plain [] := rfl

theorem plain_cons {c : Char} {cs : List Char} :
    Plain (c :: cs) ↔
      (c ≠ '\\' ∧ c ≠ '\x60' ∧ (c = '$' → cs.head? ≠ some '{')) ∧ Plain cs := by
  constructor
  · intro h
    have hb : c ≠ '\\' := by
      rintro rfl
      -- a second backslash makes the text longer
      have hlen := congrArg List.length (List.cons.inj h).2
      have hle := length_le_escapeTemplate cs
      rw [List.length_cons] at hlen
      omega
    have ha : c ≠ '\x60' := by
      rintro rfl
      exact absurd (List.cons.inj h).1 (by decide)
    have hd : ∀ cs', c = '$' → cs = '{' :: cs' → False := by
      rintro cs' rfl rfl
      exact absurd (List.cons.inj h).1 (by decide)
    rw [Plain, escapeTemplate.eq_5 c cs hb ha hd] at h
    refine ⟨⟨hb, ha, fun hc hhead => ?_⟩, (List.cons.inj h).2⟩
    obtain ⟨cs', rfl⟩ := List.head?_eq_some_iff.mp hhead
    exact hd cs' hc rfl
  · rintro ⟨⟨hb, ha, hd⟩, h⟩
    rw [Plain, escapeTemplate.eq_5 c cs hb ha, h]
    rintro cs' hc rfl
    exact hd hc rfl

/-- Only a dollar sign in front of a brace makes a text of plain texts act. -/
theorem plain_append {a b : List Char} :
    Plain (a ++ b) ↔ Plain a ∧ Plain b ∧ (a.getLast? = some '$' → b.head? ≠ some '{') := by
  induction a with
  | nil => simp [plain_nil]
  | cons c a ih =>
    rw [List.cons_append, plain_cons, ih, plain_cons]
    cases a with
    | nil =>
      simp only [List.nil_append, List.head?_nil, List.getLast?_nil, List.getLast?_singleton,
        Option.some.injEq, plain_nil]
      tauto
    | cons d a =>
      simp only [List.cons_append, List.head?_cons, List.getLast?_cons_cons]
      tauto

theorem eq_of_map_found {r : Option (List Item × List Char)} {i j : Item} {items : List Item}
    {rest : List Char} (h : r.map (found [i]) = some (j :: items, rest)) :
    i = j ∧ r = some (items, rest) := by
  obtain ⟨items', hr, he⟩ := exists_of_map_found h
  obtain ⟨rfl, rfl⟩ := List.cons.inj he
  exact ⟨rfl, hr⟩

/-- Every item takes a character of the source, and so does the end. -/
theorem length_readFrom {state : Option (List Char)} {source : List Char} :
    ∀ {items : List Item} {rest : List Char}, readFrom state source = some (items, rest) →
      items.length + rest.length < source.length := by
  have hstep : ∀ (i : Item) (cs : List Char),
      (∀ {items : List Item} {rest : List Char}, readFrom none cs = some (items, rest) →
        items.length + rest.length < cs.length) →
      ∀ {items : List Item} {rest : List Char},
        (readFrom none cs).map (found [i]) = some (items, rest) →
          items.length + rest.length < cs.length + 1 := by
    intro i cs ih items rest h
    cases items with
    | nil =>
      obtain ⟨r, -, he⟩ := Option.map_eq_some_iff.mp h
      exact absurd (Prod.mk.inj he).1 (by simp)
    | cons j items =>
      have := ih (eq_of_map_found h).2
      simp only [List.length_cons]
      omega
  fun_induction readFrom state source with
  | case1 => simp
  | case2 cs =>
    intro items rest h
    obtain ⟨rfl, rfl⟩ := Prod.mk.inj (Option.some.inj h)
    simp
  | case3 c cs ih =>
    intro items rest h
    have := hstep _ cs ih h
    simp only [List.length_cons]
    omega
  | case4 cs ih | case7 e c cs _ ih =>
    intro items rest h
    have := ih h
    simp only [List.length_cons]
    omega
  | case5 c cs _ _ _ ih => exact hstep _ cs ih
  | case6 e cs ih => exact hstep _ cs ih

theorem reads_of_plain {text : List Char} (h : Plain text) : Reads text (chars text) := by
  have hr := reads_escapeTemplate text
  rwa [show escapeTemplate text = text from h] at hr

/-- Where a literal is read as its source, it does not start with a character that acts. -/
theorem start_of_read_eq_chars {c : Char} {cs rest : List Char}
    (h : read (c :: (cs ++ '\x60' :: rest)) = some (chars (c :: cs), rest)) :
    c ≠ '\\' ∧ c ≠ '\x60' ∧ (c = '$' → cs.head? ≠ some '{') := by
  refine ⟨?_, ?_, ?_⟩
  · rintro rfl
    obtain ⟨d, tail, htail⟩ : ∃ d tail, cs ++ '\x60' :: rest = d :: tail := by
      cases cs <;> exact ⟨_, _, rfl⟩
    -- the escaped character is one item for two characters
    rw [htail, read_backslash] at h
    have hlen := length_readFrom (eq_of_map_found h).2
    have htail := congrArg List.length htail
    simp only [List.length_append, List.length_cons, List.length_map] at hlen htail
    omega
  · rintro rfl
    rw [read_accent] at h
    cases h
  · rintro rfl hhead
    obtain ⟨cs', rfl⟩ := List.head?_eq_some_iff.mp hhead
    -- a substitution takes two characters more than it gives items
    have hvalue : readFrom (some []) (cs' ++ '\x60' :: rest) = _ := h
    have hlen := length_readFrom hvalue
    simp only [chars, List.length_append, List.length_cons, List.length_map] at hlen
    omega

/-- A literal holds its source unchanged exactly if the source needs no escaping. -/
theorem read_eq_chars_iff {text rest : List Char} :
    read (text ++ '\x60' :: rest) = some (chars text, rest) ↔ Plain text := by
  constructor
  · intro h
    induction text with
    | nil => exact plain_nil
    | cons c cs ih =>
      rw [List.cons_append] at h
      obtain ⟨hb, ha, hd⟩ := start_of_read_eq_chars h
      have hhead : c = '$' → (cs ++ '\x60' :: rest).head? ≠ some '{' := by
        intro hc
        cases cs with
        | nil => simp
        | cons d cs => exact hd hc
      rw [read_char hb ha hhead, chars_cons] at h
      exact plain_cons.mpr ⟨⟨hb, ha, hd⟩, ih (eq_of_map_found h).2⟩
  · intro h
    exact (reads_of_plain h).read_eq rest

end DesignComponents.Text.TemplateLiteral
