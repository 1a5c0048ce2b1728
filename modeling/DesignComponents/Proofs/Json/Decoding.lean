import DesignComponents.Json.Value
import DesignComponents.Proofs.Json.Scalars

/-! Reading what was printed. A reader decodes a value if it takes the text of the value for one
result, wherever the text stands, as long as as many brackets may still be opened as the value
nests, and finds it too deep otherwise. Lists and objects are decoded if their entries are. -/

namespace DesignComponents.Json

open Reader

/-! ### Texts of values -/

mutual

/-- How deep the brackets of a value nest. -/
def nesting : Json → Nat
  | .null | .bool _ | .number _ | .string _ => 0
  | .array items => nestingAll items + 1
  | .object fields => nestingFields fields + 1

def nestingAll : List Json → Nat
  | [] => 0
  | v :: vs => max (nesting v) (nestingAll vs)

def nestingFields : List (String × Json) → Nat
  | [] => 0
  | (_, v) :: fs => max (nesting v) (nestingFields fs)

end

def text (v : Json) : List Char := v.compact.toList

/-- The text of a field. -/
def fieldText (f : String × Json) : List Char := (quoted f.1).toList ++ ':' :: f.2.text

/-- Entries with a comma in front of each, but for the first one if there is none before it. -/
def separated : Bool → List (List Char) → List Char
  | _, [] => []
  | first, e :: es => (if first then e else ',' :: e) ++ separated false es

theorem intercalate_eq_separated (es : List (List Char)) :
    [','].intercalate es = separated true es := by
  have hlater : ∀ es : List (List Char), es ≠ [] → ',' :: [','].intercalate es =
      separated false es := by
    intro es hne
    induction es with
    | nil => exact absurd rfl hne
    | cons e es ih =>
      cases es with
      | nil => simp [separated]
      | cons e' es =>
        rw [List.intercalate_cons_cons, separated, ← ih (List.cons_ne_nil e' es)]
        simp
  cases es with
  | nil => rfl
  | cons e es =>
    cases es with
    | nil => simp [separated]
    | cons e' es =>
      rw [List.intercalate_cons_cons, separated, ← hlater _ (List.cons_ne_nil e' es)]
      simp

/-- One entry less leaves less text. -/
theorem length_separated_lt {e : List Char} (he : e ≠ []) (first : Bool) (es : List (List Char)) :
    (separated false es).length < (separated first (e :: es)).length := by
  have hpos := List.length_pos_iff.mpr he
  rw [separated, List.length_append]
  split_ifs
  · omega
  · rw [List.length_cons]
    omega

theorem compactItems_eq (vs : List Json) : compactItems vs = vs.map compact := by
  induction vs with
  | nil => rfl
  | cons v vs ih => rw [compactItems, ih, List.map_cons]

theorem text_array (vs : List Json) :
    (array vs).text = '[' :: (separated true (vs.map text) ++ [']']) := by
  have hopen : "[".toList = ['['] := rfl
  have hclose : "]".toList = [']'] := rfl
  have hcomma : ",".toList = [','] := rfl
  rw [text, compact, String.toList_append, String.toList_append, String.toList_intercalate, hopen,
    hclose, hcomma, compactItems_eq, List.map_map, intercalate_eq_separated]
  rfl

theorem map_toList_compactFields (fs : List (String × Json)) :
    (compactFields fs).map String.toList = fs.map fieldText := by
  induction fs with
  | nil => rfl
  | cons f fs ih =>
    have hcolon : ":".toList = [':'] := rfl
    rw [compactFields, List.map_cons, ih, List.map_cons, String.toList_append,
      String.toList_append, hcolon, List.append_assoc]
    rfl

theorem text_object (fs : List (String × Json)) :
    (object fs).text = '{' :: (separated true (fs.map fieldText) ++ ['}']) := by
  have hopen : "\x7b".toList = ['{'] := rfl
  have hclose : "\x7d".toList = ['}'] := rfl
  have hcomma : ",".toList = [','] := rfl
  rw [text, compact, String.toList_append, String.toList_append, String.toList_intercalate, hopen,
    hclose, hcomma, map_toList_compactFields, intercalate_eq_separated]
  rfl

theorem text_string (s : String) : (string s).text = (quoted s).toList := rfl

/-- A value is no double itself; it may hold doubles. -/
def IsNoDouble (v : Json) : Prop := ∀ d, v ≠ number (.double d)

theorem isSpace_eq_false_of_numeral {c : Char} (h : c = '-' ∨ c.isDigit = true) :
    isSpace c = false := by
  rcases h with rfl | h
  · rfl
  · rw [← Bool.not_eq_true]
    intro hs
    simp only [isSpace, Bool.or_eq_true, decide_eq_true_eq] at hs
    rcases hs with ((rfl | rfl) | rfl) | rfl <;> exact absurd h (by decide)

theorem ne_of_numeral {c d : Char} (h : c = '-' ∨ c.isDigit = true) (hminus : d ≠ '-')
    (hdigit : d.isDigit = false) : c ≠ d := by
  rintro rfl
  exact h.elim hminus fun h => absurd h (by simp [hdigit])

/-- The first character tells a value from the end of a list and from the word for no value. -/
theorem exists_text_eq_cons {v : Json} (h : v.IsNoDouble) :
    ∃ c cs, v.text = c :: cs ∧ isSpace c = false ∧ c ≠ ']' ∧ (c = 'n' → v = null) := by
  cases v with
  -- the word for no value is the only text that starts like it
  | null => exact ⟨'n', _, rfl, rfl, by decide, fun _ => rfl⟩
  | bool b =>
    cases b with
    | false => exact ⟨'f', _, rfl, rfl, by decide, fun h => absurd h (by decide)⟩
    | true => exact ⟨'t', _, rfl, rfl, by decide, fun h => absurd h (by decide)⟩
  | number n =>
    cases n with
    | double d => exact absurd rfl (h d)
    | integer n =>
      obtain ⟨c, cs, hcons, hc⟩ := Numeral.exists_toString_eq_cons n.value
      exact ⟨c, cs, hcons, isSpace_eq_false_of_numeral hc, ne_of_numeral hc (by decide) (by decide),
        fun h => absurd h (ne_of_numeral hc (by decide) (by decide))⟩
  | string s => exact ⟨'"', _, toList_quoted s, rfl, by decide, fun h => absurd h (by decide)⟩
  | array vs => exact ⟨'[', _, text_array vs, rfl, by decide, fun h => absurd h (by decide)⟩
  | object fs => exact ⟨'{', _, text_object fs, rfl, by decide, fun h => absurd h (by decide)⟩

theorem text_ne_nil {v : Json} (h : v.IsNoDouble) : v.text ≠ [] := by
  obtain ⟨c, cs, hcons, -⟩ := exists_text_eq_cons h
  simp [hcons]

/-! ### Decoding -/

/-- A reader takes the text of a value for a result, whatever ends it, if the depth that is left
allows for its brackets. -/
structure Decodes {α : Type} (read : Nat → Reader α) (v : Json) (a : α) : Prop where
  isNoDouble : v.IsNoDouble
  reads : ∀ depth rest, Ends rest →
    read depth (v.text ++ rest) = if v.nesting ≤ depth then .ok (a, rest) else .error .tooDeep

namespace Reader

variable {α β : Type}

theorem bind_of_ite {read : Reader α} {next : α → Reader β} {cs rest : List Char} {a : α}
    {f : Fault} {p : Prop} [Decidable p] (h : read cs = if p then .ok (a, rest) else .error f) :
    (read >>= next) cs = if p then next a rest else .error f := by
  split_ifs at h ⊢
  · exact bind_of_ok h
  · exact bind_of_error h

end Reader

variable {α β : Type}

/-- A result may be worked on as long as no more of the text is taken. -/
theorem Decodes.bind {read : Nat → Reader α} {v : Json} {a : α} (h : Decodes read v a)
    {next : α → Reader β} {b : β} (hnext : ∀ rest, next a rest = .ok (b, rest)) :
    Decodes (fun depth => read depth >>= next) v b := by
  refine ⟨h.isNoDouble, fun depth rest hr => ?_⟩
  rw [bind_of_ite (h.reads depth rest hr), hnext]

theorem Decodes.map {read : Nat → Reader α} {v : Json} {a : α} (h : Decodes read v a)
    (f : α → β) : Decodes (fun depth => f <$> read depth) v (f a) := by
  show Decodes (fun depth => read depth >>= fun a => pure (f a)) v (f a)
  exact h.bind fun _ => rfl

/-- A reader that goes by the first character decodes what the reader for that character does. -/
theorem Decodes.of_peek {read : Nat → Reader α} {v : Json} {a : α} (h : Decodes read v a)
    {next : Nat → Option Char → Reader α}
    (hnext : ∀ depth c cs, v.text = c :: cs → next depth (some c) = read depth) :
    Decodes (fun depth => peek >>= next depth) v a := by
  refine ⟨h.isNoDouble, fun depth rest hr => ?_⟩
  obtain ⟨c, cs, hcons, hspace, -, -⟩ := exists_text_eq_cons h.isNoDouble
  rw [← h.reads depth rest hr, hcons, List.cons_append, peek_bind_cons hspace,
    hnext depth c cs hcons]

theorem Decodes.of_head {read : Nat → Reader α} {v : Json} {a : α} (h : Decodes read v a)
    {c : Char} {cs : List Char} (hcons : v.text = c :: cs) {next : Nat → Option Char → Reader α}
    (hnext : ∀ depth, next depth (some c) = read depth) :
    Decodes (fun depth => peek >>= next depth) v a := by
  refine h.of_peek fun depth d ds hcons' => ?_
  obtain rfl : c = d := (List.cons.inj (hcons.symm.trans hcons')).1
  exact hnext depth

theorem decodes_stringHere (s : String) : Decodes (fun _ => stringHere) (string s) s := by
  refine ⟨nofun, fun depth rest _ => ?_⟩
  rw [text_string, stringHere_quoted, nesting, if_pos (Nat.zero_le depth)]

/-! ### Values that may be missing -/

theorem decodes_optional_null (read : Nat → Reader α) :
    Decodes (fun depth => optional (read depth)) null none := by
  refine ⟨nofun, fun depth rest _ => ?_⟩
  rw [nesting, if_pos (Nat.zero_le depth)]
  rfl

theorem Decodes.optional {read : Nat → Reader α} {v : Json} {a : α} (h : Decodes read v a)
    (hv : v ≠ null) : Decodes (fun depth => optional (read depth)) v (some a) := by
  refine (h.map some).of_peek fun depth c cs hcons => ?_
  obtain ⟨d, ds, hcons', -, -, hnull⟩ := exists_text_eq_cons h.isNoDouble
  have hc : c ≠ 'n' := by
    rw [hcons, List.cons.injEq] at hcons'
    rintro rfl
    exact hv (hnull hcons'.1.symm)
  split
  · simp_all
  · rfl

/-! ### Lists -/

/-- What stands in brackets may nest one less deep. -/
theorem opened_text {body : Nat → Nat → Reader α} {n : Nat} {bracket : Char} {cs rest : List Char}
    {a : α} (h : ∀ depth, body (depth + 1) depth cs =
      if n ≤ depth then .ok (a, rest) else .error .tooDeep) (depth : Nat) :
    opened depth (body depth) (bracket :: cs) =
      if n + 1 ≤ depth then .ok (a, rest) else .error .tooDeep := by
  cases depth with
  | zero =>
    rw [if_neg (Nat.not_succ_le_zero n)]
    rfl
  | succ depth =>
    rw [opened, advance_bind_cons, h]
    simp only [Nat.add_le_add_iff_right]

theorem ends_separated {close : Char} (hclose : close.isDigit = false ∧ close ≠ '.' ∧ close ≠ 'e' ∧
    close ≠ 'E') (es : List (List Char)) (rest : List Char) :
    Ends (separated false es ++ close :: rest) := by
  cases es with
  | nil => exact ends_cons hclose rest
  | cons e es => exact ends_cons (by decide) _

/-- A list goes on where one more value stands. -/
theorem hasNext_text {v : Json} (h : v.IsNoDouble) (first : Bool) (rest : List Char) :
    hasNext first ((if first then v.text else ',' :: v.text) ++ rest) =
      .ok (true, v.text ++ rest) := by
  obtain ⟨c, cs, hcons, hspace, hclose, -⟩ := exists_text_eq_cons h
  rw [hcons]
  cases first with
  | true =>
    rw [if_pos rfl, List.cons_append, hasNext, peek_bind_cons hspace]
    generalize hd : some c = d
    split
    · cases hd
    · cases hd
      exact absurd rfl hclose
    · rfl
  | false =>
    have hcomma : peek (',' :: c :: (cs ++ rest)) = .ok (some ',', ',' :: c :: (cs ++ rest)) :=
      peek_cons (by decide) _
    rw [if_neg Bool.false_ne_true, List.cons_append, List.cons_append, hasNext, bind_of_ok hcomma]
    show (advance >>= fun _ => _) _ = _
    rw [advance_bind_cons, peek_bind_cons hspace]
    generalize hd : some c = d
    split
    · cases hd
    · cases hd
      exact absurd rfl hclose
    · rfl

/-- A closing bracket ends a list. -/
theorem hasNext_close (first : Bool) (rest : List Char) :
    hasNext first (']' :: rest) = .ok (false, ']' :: rest) := by
  rw [hasNext, peek_bind_cons (by decide)]
  rfl

theorem entries_text {read : Nat → Reader α} {vs : List Json} {as : List α}
    (h : List.Forall₂ (Decodes read) vs as) {fuel : Nat} (first : Bool)
    (hfuel : (separated first (vs.map text)).length < fuel) (depth : Nat) (rest : List Char) :
    entries (read depth) fuel first (separated first (vs.map text) ++ ']' :: rest) =
      if nestingAll vs ≤ depth then .ok (as, ']' :: rest) else .error .tooDeep := by
  -- along the entries: the fuel stays above the length of the text, which every entry shortens
  induction h generalizing fuel first with
  | nil =>
    obtain ⟨fuel, rfl⟩ := Nat.exists_eq_add_one_of_ne_zero (Nat.ne_of_gt hfuel)
    rw [nestingAll, if_pos (Nat.zero_le depth), entries]
    exact bind_of_ok (hasNext_close first rest)
  | @cons v a vs as hv _ ih =>
    obtain ⟨fuel, rfl⟩ := Nat.exists_eq_add_one_of_ne_zero (Nat.ne_of_gt (Nat.zero_lt_of_lt hfuel))
    have hless := length_separated_lt (text_ne_nil hv.isNoDouble) first (vs.map text)
    have hrest := ih false (Nat.lt_of_lt_of_le hless (Nat.le_of_lt_succ hfuel))
    rw [List.map_cons, separated, List.append_assoc, entries,
      bind_of_ok (hasNext_text hv.isNoDouble first _), if_pos rfl,
      bind_of_ite (hv.reads depth _ (ends_separated (by decide) _ rest)), bind_of_ite hrest,
      ← ite_and, nestingAll]
    simp only [Nat.max_le]
    rfl

/-- A list is read entry by entry, one bracket deeper. -/
theorem decodes_listHere {read : Nat → Reader α} {vs : List Json} {as : List α}
    (h : List.Forall₂ (Decodes read) vs as) (item : Nat → Reader α)
    (hitem : ∀ depth, item (depth + 1) = read depth) :
    Decodes (fun depth => listHere depth (item depth)) (array vs) as := by
  refine ⟨nofun, fun depth rest _ => ?_⟩
  rw [text_array, nesting, List.cons_append, List.append_assoc, List.singleton_append, listHere]
  apply opened_text
  intro depth
  have hend : endList (']' :: rest) = .ok ((), rest) := rfl
  rw [remaining_bind, hitem, bind_of_ite (entries_text h true (by simp) depth rest),
    bind_of_ok hend]
  rfl

theorem decodes_list {read : Nat → Reader α} {vs : List Json} {as : List α}
    (h : List.Forall₂ (Decodes read) vs as) (item : Nat → Reader α)
    (hitem : ∀ depth, item (depth + 1) = read depth) :
    Decodes (fun depth => list depth (item depth)) (array vs) as :=
  (decodes_listHere h item hitem).of_head (text_array vs) fun _ => rfl

/-! ### Objects -/

variable {σ : Type}

/-- A step takes the fields one after the other from one state to another. -/
inductive Takes (step : Nat → String → σ → Reader σ) : List (String × Json) → σ → σ → Prop where
  | nil (s : σ) : Takes step [] s s
  | cons {key : String} {v : Json} {fs : List (String × Json)} {s s₁ s₂ : σ}
      (first : ∀ depth rest, Ends rest → step depth key s (':' :: (v.text ++ rest)) =
        if v.nesting ≤ depth then .ok (s₁, rest) else .error .tooDeep)
      (later : Takes step fs s₁ s₂) : Takes step ((key, v) :: fs) s s₂

namespace Takes

variable {step : Nat → String → σ → Reader σ}

theorem append {fs gs : List (String × Json)} {s s₁ s₂ : σ} (hfs : Takes step fs s s₁)
    (hgs : Takes step gs s₁ s₂) : Takes step (fs ++ gs) s s₂ := by
  induction hfs with
  | nil => exact hgs
  | cons first _ ih => exact .cons first (ih hgs)

/-- A field is taken by a reader for its value behind the colon. -/
theorem singleton {read : Nat → Reader σ} {key : String} {v : Json} {s s' : σ}
    (h : Decodes read v s') (hstep : ∀ depth, step depth key s = colon >>= fun _ => read depth) :
    Takes step [(key, v)] s s' := by
  refine .cons (fun depth rest hr => ?_) (.nil s')
  rw [hstep, ← h.reads depth rest hr]
  exact bind_of_ok rfl

end Takes

theorem exists_fieldText_eq_cons (f : String × Json) : ∃ cs, fieldText f = '"' :: cs :=
  ⟨_, by rw [fieldText, toList_quoted]; rfl⟩

theorem fieldText_ne_nil (f : String × Json) : fieldText f ≠ [] := by
  obtain ⟨cs, hcons⟩ := exists_fieldText_eq_cons f
  simp [hcons]

theorem nextKey_fieldText (f : String × Json) (first : Bool) (rest : List Char) :
    nextKey first ((if first then fieldText f else ',' :: fieldText f) ++ rest) =
      .ok (some f.1, ':' :: (f.2.text ++ rest)) := by
  have hkey : (some <$> stringHere) (fieldText f ++ rest) =
      .ok (some f.1, ':' :: (f.2.text ++ rest)) := by
    rw [fieldText, List.append_assoc]
    exact map_eq_ok_iff.mpr ⟨f.1, stringHere_quoted f.1 _, rfl⟩
  obtain ⟨cs, hcons⟩ := exists_fieldText_eq_cons f
  rw [← hkey, hcons]
  cases first with
  | true =>
    rw [if_pos rfl, List.cons_append, nextKey, peek_bind_cons (by decide)]
    rfl
  | false =>
    rw [if_neg Bool.false_ne_true, List.cons_append, nextKey, peek_bind_cons (by decide)]
    show (advance >>= fun _ => _) _ = _
    rw [advance_bind_cons, List.cons_append, peek_bind_cons (by decide)]
    rfl

theorem nextKey_close (first : Bool) (rest : List Char) :
    nextKey first ('}' :: rest) = .ok (none, '}' :: rest) := by
  rw [nextKey, peek_bind_cons (by decide)]
  rfl

theorem fields_text {step : Nat → String → σ → Reader σ} {fs : List (String × Json)} {s s' : σ}
    (h : Takes step fs s s') {fuel : Nat} (first : Bool)
    (hfuel : (separated first (fs.map fieldText)).length < fuel) (depth : Nat) (rest : List Char) :
    fields (step depth) fuel first s (separated first (fs.map fieldText) ++ '}' :: rest) =
      if nestingFields fs ≤ depth then .ok (s', '}' :: rest) else .error .tooDeep := by
  induction h generalizing fuel first with
  | nil s =>
    obtain ⟨fuel, rfl⟩ := Nat.exists_eq_add_one_of_ne_zero (Nat.ne_of_gt hfuel)
    rw [nestingFields, if_pos (Nat.zero_le depth), fields]
    exact bind_of_ok (nextKey_close first rest)
  | @cons key v fs s s₁ s₂ hfirst _ ih =>
    obtain ⟨fuel, rfl⟩ := Nat.exists_eq_add_one_of_ne_zero (Nat.ne_of_gt (Nat.zero_lt_of_lt hfuel))
    have hless := length_separated_lt (fieldText_ne_nil (key, v)) first (fs.map fieldText)
    have hrest := ih false (Nat.lt_of_lt_of_le hless (Nat.le_of_lt_succ hfuel))
    rw [List.map_cons, separated, List.append_assoc, fields,
      bind_of_ok (nextKey_fieldText (key, v) first _)]
    show (step depth key s >>= fields (step depth) fuel false) _ = _
    rw [bind_of_ite (hfirst depth _ (ends_separated (by decide) _ rest)), hrest, ← ite_and,
      nestingFields]
    simp only [Nat.max_le]

/-- An object is read field by field, one bracket deeper. -/
theorem decodes_objectHere {step : Nat → String → σ → Reader σ} {fs : List (String × Json)}
    {s s' : σ} (h : Takes step fs s s') (steps : Nat → Nat → String → σ → Reader σ)
    (hsteps : ∀ depth, steps (depth + 1) depth = step depth) :
    Decodes (fun depth => objectHere depth (steps depth) s) (object fs) s' := by
  refine ⟨nofun, fun depth rest _ => ?_⟩
  rw [text_object, nesting, List.cons_append, List.append_assoc, List.singleton_append, objectHere]
  apply opened_text
  intro depth
  rw [remaining_bind, hsteps, bind_of_ite (fields_text h true (by simp) depth rest),
    advance_bind_cons]
  rfl

end DesignComponents.Json
