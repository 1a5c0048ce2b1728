import DesignComponents.Proofs.Text.Segmentation

/-! The grammar of placeholders. A text is read from the left. Where two opening braces have two
closing braces behind them on the same line, the shortest body between such braces is taken as
a whole; a body that is not blank is a placeholder, and all else is literal text. The segments
of a text are the only ones that this grammar gives, and a literal run is one segment again. -/

namespace DesignComponents.Text.Placeholder

/-! ### Matches -/

/-- A text starts with a match: two opening braces, the shortest body on the line that has two
closing braces behind it, and these braces. -/
structure Opens (raw rest cs : List Char) : Prop where
  spelled : cs = spell raw ++ rest
  unbroken : '\n' ∉ raw
  shortest : ∀ raw' rest', cs = spell raw' ++ rest' → '\n' ∉ raw' → raw.length ≤ raw'.length

/-- No body is on the line, however long. -/
def Shut (cs : List Char) : Prop := ∀ raw rest, cs = spell raw ++ rest → '\n' ∈ raw

theorem body?_cons {c : Char} (hc : c ≠ '\n') (cs : List Char) :
    body? (c :: cs) =
      if c = '}' ∧ cs.head? = some '}' then some [] else (body? cs).map (c :: ·) := by
  split_ifs with h
  · obtain ⟨rfl, hcs⟩ := h
    obtain ⟨cs, rfl⟩ := List.head?_eq_some_iff.mp hcs
    rfl
  · rw [body?]
    · exact hc
    · rintro cs' rfl rfl
      exact h ⟨rfl, rfl⟩

theorem break_notMem_of_body? {cs raw : List Char} (h : body? cs = some raw) : '\n' ∉ raw := by
  fun_induction body? cs generalizing raw with
  | case1 | case2 => cases h
  | case3 rest =>
    cases h
    exact List.not_mem_nil
  | case4 c cs hc _ ih =>
    obtain ⟨raw, hraw, rfl⟩ := Option.map_eq_some_iff.mp h
    rw [List.mem_cons, not_or]
    exact ⟨fun he => hc he.symm, ih hraw⟩

/-- The body that is found is not longer than any other on the line. -/
theorem exists_body? {raw : List Char} (h : '\n' ∉ raw) (rest : List Char) :
    ∃ found, body? (raw ++ '}' :: '}' :: rest) = some found ∧ found.length ≤ raw.length := by
  induction raw with
  | nil => exact ⟨[], rfl, Nat.le_refl 0⟩
  | cons c raw ih =>
    rw [List.mem_cons, not_or] at h
    obtain ⟨found, hfound, hle⟩ := ih h.2
    rw [List.cons_append, body?_cons (Ne.symm h.1), hfound]
    split_ifs
    · exact ⟨[], rfl, Nat.zero_le _⟩
    · exact ⟨c :: found, rfl, Nat.succ_le_succ hle⟩

theorem at?_spell (raw rest : List Char) :
    at? (spell raw ++ rest) = body? (raw ++ '}' :: '}' :: rest) := by
  simp [spell, at?]

theorem opens_of_at? {cs raw : List Char} (h : at? cs = some raw) : ∃ rest, Opens raw rest cs := by
  obtain ⟨rest, rfl⟩ := eq_of_at? h
  have hbody := h
  rw [at?_spell] at hbody
  refine ⟨rest, rfl, break_notMem_of_body? hbody, fun raw' rest' he hn => ?_⟩
  obtain ⟨found, hfound, hle⟩ := exists_body? hn rest'
  rw [he, at?_spell, hfound] at h
  cases h
  exact hle

theorem shut_of_at? {cs : List Char} (h : at? cs = none) : Shut cs := by
  rintro raw rest rfl
  by_contra hn
  obtain ⟨found, hfound, -⟩ := exists_body? hn rest
  rw [at?_spell, hfound] at h
  cases h

namespace Opens

variable {raw rest cs : List Char}

/-- A text starts with one match only. -/
theorem unique (h : Opens raw rest cs) {raw' rest' : List Char} (h' : Opens raw' rest' cs) :
    raw = raw' ∧ rest = rest' := by
  have hlen : raw.length = raw'.length :=
    Nat.le_antisymm (h.shortest _ _ h'.spelled h'.unbroken) (h'.shortest _ _ h.spelled h.unbroken)
  have he : spell raw ++ rest = spell raw' ++ rest' := h.spelled.symm.trans h'.spelled
  obtain ⟨hspell, hrest⟩ := List.append_inj he (by simp [spell, hlen])
  refine ⟨?_, hrest⟩
  have hraw := List.append_inj_left' hspell rfl
  exact (List.cons.inj (List.cons.inj hraw).2).2

theorem ne_nil (h : Opens raw rest cs) : cs ≠ [] := by
  rw [h.spelled]
  exact List.cons_ne_nil _ _

theorem length_lt (h : Opens raw rest cs) : rest.length < cs.length := by
  simp only [h.spelled, spell, List.length_append, List.length_cons]
  omega

theorem not_shut (h : Opens raw rest cs) : ¬ Shut cs :=
  fun hs => h.unbroken (hs raw rest h.spelled)

/-- Two closing braces further to the left would make the body shorter. -/
theorem length_le (h : Opens raw rest cs) (front back : List Char)
    (he : raw ++ ['}', '}'] = front ++ '}' :: '}' :: back) : raw.length ≤ front.length := by
  have hspell : spell raw = spell front ++ back := by
    have hraw : spell raw = '{' :: '{' :: (raw ++ ['}', '}']) := rfl
    rw [hraw, he]
    simp [spell]
  refine h.shortest front (back ++ rest) ?_ fun hn => ?_
  · rw [h.spelled, hspell, List.append_assoc]
  · have hmem : '\n' ∈ raw ++ ['}', '}'] := he ▸ List.mem_append_left _ hn
    rcases List.mem_append.mp hmem with hraw | hbrace
    · exact h.unbroken hraw
    · exact absurd hbrace (by decide)

theorem braces_notMem (h : Opens raw rest cs) : ¬ ['}', '}'] <:+: raw := by
  rintro ⟨front, back, rfl⟩
  have hle := h.length_le front (back ++ ['}', '}']) (by simp)
  simp only [List.length_append, List.length_cons] at hle
  omega

theorem getLast?_ne (h : Opens raw rest cs) : raw.getLast? ≠ some '}' := by
  intro hlast
  obtain ⟨front, rfl⟩ := List.getLast?_eq_some_iff.mp hlast
  have hle := h.length_le front ['}'] (by simp)
  simp only [List.length_append, List.length_cons] at hle
  omega

theorem at?_eq (h : Opens raw rest cs) : at? cs = some raw := by
  cases hat : at? cs with
  | none => exact absurd (shut_of_at? hat) h.not_shut
  | some raw' =>
    obtain ⟨rest', h'⟩ := opens_of_at? hat
    rw [(h.unique h').1]

end Opens

/-! ### The grammar -/

/-- A literal run, or a placeholder with the white space around its body. -/
inductive Part where
  | literal (text : List Char)
  | span (raw : List Char)

namespace Part

/-- The text that a part stands for. -/
def source : Part → List Char
  | literal text => text
  | span raw => spell raw

def segment : Part → Segment
  | literal text => .literal (String.ofList text)
  | span raw => .placeholder (String.ofList (trim raw))

end Part

/-- What reading passes over in front of some text, without meeting a placeholder: a character that
starts no match, or a match with a blank body. -/
inductive Passes : List Char → List Char → Prop
  | char {c : Char} {rest : List Char} (h : Shut (c :: rest)) : Passes [c] rest
  | blank {raw rest : List Char} (h : Opens raw rest (spell raw ++ rest)) (hb : trim raw = []) :
      Passes (spell raw) rest

/-- A literal run in front of some text. -/
inductive Run : List Char → List Char → Prop
  | nil (rest : List Char) : Run [] rest
  | cons {front text rest : List Char} (h : Passes front (text ++ rest)) (hr : Run text rest) :
      Run (front ++ text) rest

/-- A text is read into parts: a match whose body is not blank is a placeholder, and what is read
until such a match or the end is one literal run. -/
inductive Splits : List Char → List Part → Prop
  | nil : Splits [] []
  | span {raw rest cs : List Char} {parts : List Part} (h : Opens raw rest cs) (hb : trim raw ≠ [])
      (hs : Splits rest parts) : Splits cs (.span raw :: parts)
  | literal {text rest : List Char} {parts : List Part} (hn : text ≠ []) (hr : Run text rest)
      (hl : ∀ t, parts.head? ≠ some (.literal t)) (hs : Splits rest parts) :
      Splits (text ++ rest) (.literal text :: parts)

namespace Passes

variable {front rest : List Char}

theorem ne_nil (h : Passes front rest) : front ≠ [] := by
  cases h <;> exact List.cons_ne_nil _ _

/-- There is one way to go on. -/
theorem unique (h : Passes front rest) {front' rest' : List Char} (h' : Passes front' rest')
    (he : front ++ rest = front' ++ rest') : front = front' ∧ rest = rest' := by
  cases h with
  | char h =>
    cases h' with
    | char h' =>
      obtain ⟨rfl, rfl⟩ := List.cons.inj he
      exact ⟨rfl, rfl⟩
    | blank h' hb' => exact absurd (he ▸ h : Shut _) h'.not_shut
  | blank h hb =>
    cases h' with
    | char h' => exact absurd (he ▸ h' : Shut _) h.not_shut
    | blank h' hb' =>
      obtain ⟨rfl, rfl⟩ := h.unique (he ▸ h')
      exact ⟨rfl, rfl⟩

/-- A match in a text is one in a longer text. -/
theorem shorten {behind : List Char} (h : Passes front (rest ++ behind)) : Passes front rest := by
  cases h with
  | @char c _ h =>
    refine .char fun raw rest' he => h raw (rest' ++ behind) ?_
    rw [← List.append_assoc, ← he, List.cons_append]
  | @blank raw _ h hb =>
    refine .blank ⟨rfl, h.unbroken, fun raw' rest' he => h.shortest raw' (rest' ++ behind) ?_⟩ hb
    rw [← List.append_assoc, ← List.append_assoc, he]

end Passes

/-- A literal run stops at the end of the text and in front of a placeholder. -/
def Stops (cs : List Char) : Prop := cs = [] ∨ ∃ raw rest, Opens raw rest cs ∧ trim raw ≠ []

theorem Passes.not_stops {front rest : List Char} (h : Passes front rest) :
    ¬ Stops (front ++ rest) := by
  rintro (he | ⟨raw, rest', ho, hb⟩)
  · exact h.ne_nil (List.append_eq_nil_iff.mp he).1
  · cases h with
    | char h => exact ho.not_shut h
    | blank h hblank => exact hb ((h.unique ho).1 ▸ hblank)

namespace Run

variable {text rest : List Char}

/-- A run goes on with what is read behind it. -/
theorem append {tail : List Char} (h : Run text tail) {text' : List Char}
    (ht : tail = text' ++ rest) (hr : Run text' rest) : Run (text ++ text') rest := by
  induction h with
  | nil tail => exact hr
  | cons h _ ih =>
    rw [List.append_assoc]
    refine .cons ?_ (ih ht)
    rwa [List.append_assoc, ← ht]

/-- What is passed over joins the run that was gathered in front of it. -/
theorem pass {acc front : List Char} (h : Run acc.reverse (front ++ rest))
    (hp : Passes front rest) : Run (front.reverse ++ acc).reverse rest := by
  have hfront : Run (front ++ []) rest := .cons hp (.nil rest)
  rw [List.append_nil] at hfront
  rw [List.reverse_append, List.reverse_reverse]
  exact h.append rfl hfront

/-- What stands behind a run does not matter to it. -/
theorem alone (h : Run text rest) : Run text [] := by
  induction h with
  | nil rest => exact .nil []
  | cons h _ ih =>
    refine .cons ?_ ih
    rw [List.append_nil]
    exact h.shorten

/-- A run does not stop before its end. -/
theorem not_stops (h : Run text rest) (hn : text ≠ []) : ¬ Stops (text ++ rest) := by
  cases h with
  | nil => exact absurd rfl hn
  | cons h _ =>
    rw [List.append_assoc]
    exact h.not_stops

/-- Two runs at the start of a text stop at the same place. -/
theorem unique (h : Run text rest) (hs : Stops rest) {text' rest' : List Char}
    (h' : Run text' rest') (hs' : Stops rest') (he : text ++ rest = text' ++ rest') :
    text = text' := by
  induction h generalizing text' with
  | nil rest =>
    by_contra hn
    exact h'.not_stops (Ne.symm hn) (he ▸ hs)
  | cons h hr ih =>
    cases h' with
    | nil => exact absurd (he ▸ hs' : Stops _) ((Run.cons h hr).not_stops (by simp [h.ne_nil]))
    | cons h' hr' =>
      rw [List.append_assoc, List.append_assoc] at he
      obtain ⟨rfl, hrest⟩ := h.unique h' he
      rw [ih hs hr' hrest]

end Run

namespace Splits

variable {cs : List Char} {parts : List Part}

/-- A run stops in front of parts that do not start with another run. -/
theorem stops (h : Splits cs parts) (hl : ∀ t, parts.head? ≠ some (.literal t)) : Stops cs := by
  cases h with
  | nil => exact .inl rfl
  | span h hb _ => exact .inr ⟨_, _, h, hb⟩
  | literal => exact absurd rfl (hl _)

/-- A text is read in one way only. -/
theorem unique (h : Splits cs parts) {cs' : List Char} {parts' : List Part} (h' : Splits cs' parts')
    (he : cs = cs') : parts = parts' := by
  induction h generalizing cs' parts' with
  | nil =>
    cases h' with
    | nil => rfl
    | span h => exact absurd he.symm h.ne_nil
    | literal hn hr => exact absurd (.inl he.symm) (hr.not_stops hn)
  | @span raw rest cs parts h hb _ ih =>
    cases h' with
    | nil => exact absurd he h.ne_nil
    | span h' hb' hs' =>
      obtain ⟨rfl, hrest⟩ := h.unique (he ▸ h')
      rw [ih hs' hrest]
    | literal hn hr => exact absurd (he ▸ .inr ⟨_, _, h, hb⟩ : Stops _) (hr.not_stops hn)
  | literal hn hr hl hs ih =>
    cases h' with
    | nil => exact absurd (.inl he) (hr.not_stops hn)
    | span h' hb' => exact absurd (he ▸ .inr ⟨_, _, h', hb'⟩ : Stops _) (hr.not_stops hn)
    | literal hn' hr' hl' hs' =>
      obtain rfl := hr.unique (hs.stops hl) hr' (hs'.stops hl') he
      rw [ih hs' (List.append_cancel_left he)]

theorem flatMap_source (h : Splits cs parts) : parts.flatMap Part.source = cs := by
  induction h with
  | nil => rfl
  | span h _ _ ih =>
    rw [List.flatMap_cons, ih, h.spelled]
    rfl
  | literal _ _ _ _ ih =>
    rw [List.flatMap_cons, ih]
    rfl

theorem of_span_mem (h : Splits cs parts) {raw : List Char} (hm : .span raw ∈ parts) :
    trim raw ≠ [] ∧ ∃ rest cs', Opens raw rest cs' := by
  induction h with
  | nil => cases hm
  | span h hb _ ih =>
    rcases List.mem_cons.mp hm with he | hm
    · cases he
      exact ⟨hb, _, _, h⟩
    · exact ih hm
  | literal _ _ _ _ ih =>
    rcases List.mem_cons.mp hm with he | hm
    · cases he
    · exact ih hm

theorem of_literal_mem (h : Splits cs parts) {text : List Char} (hm : .literal text ∈ parts) :
    text ≠ [] ∧ ∃ rest, Run text rest := by
  induction h with
  | nil => cases hm
  | span _ _ _ ih =>
    rcases List.mem_cons.mp hm with he | hm
    · cases he
    · exact ih hm
  | literal hn hr _ _ ih =>
    rcases List.mem_cons.mp hm with he | hm
    · cases he
      exact ⟨hn, _, hr⟩
    · exact ih hm

end Splits

/-! ### The scan follows the grammar -/

theorem scan_eq_drop (skip : Nat) (cs : List Char) : scan skip cs = scan 0 (cs.drop skip) := by
  induction cs generalizing skip with
  | nil => cases skip <;> rfl
  | cons c cs ih =>
    cases skip with
    | zero => rfl
    | succ skip => rw [scan, ih, List.drop_succ_cons]

/-- The scan takes a match as a whole and goes on behind it. -/
theorem Opens.scan_eq {raw rest cs : List Char} (h : Opens raw rest cs) :
    scan 0 cs = .span raw :: scan 0 rest := by
  obtain ⟨c, cs, rfl⟩ := List.exists_cons_of_ne_nil h.ne_nil
  have hdrop : cs.drop (raw.length + 3) = rest := by
    have hcs : cs = '{' :: raw ++ ['}', '}'] ++ rest := (List.cons.inj h.spelled).2
    have hlen : ('{' :: raw ++ ['}', '}']).length = raw.length + 3 := by simp
    rw [hcs, ← hlen, List.drop_left]
  rw [scan, h.at?_eq]
  simp only [scan_eq_drop (raw.length + 3), hdrop]

theorem scan_of_shut {c : Char} {cs : List Char} (h : at? (c :: cs) = none) :
    scan 0 (c :: cs) = .char c :: scan 0 cs := by
  rw [scan, h]

theorem gather_blank {raw : List Char} (hb : trim raw = []) (acc : List Char)
    (pieces : List Piece) :
    gather acc (.span raw :: pieces) = gather ((spell raw).reverse ++ acc) pieces := by
  rw [gather, hb]

theorem gather_span {raw : List Char} (hb : trim raw ≠ []) (acc : List Char) (pieces : List Piece) :
    gather acc (.span raw :: pieces) =
      flush acc ++ .placeholder (String.ofList (trim raw)) :: gather [] pieces := by
  rw [gather]
  split
  · next h => exact absurd h hb
  · next h => rw [h]

/-- The characters gathered so far are a segment in front of the others. -/
theorem Splits.exists_flush {acc cs : List Char} {parts : List Part} (hs : Splits cs parts)
    (h : Run acc.reverse cs) (hl : ∀ t, parts.head? ≠ some (.literal t)) :
    ∃ parts', Splits (acc.reverse ++ cs) parts' ∧
      flush acc ++ parts.map Part.segment = parts'.map Part.segment := by
  cases acc with
  | nil => exact ⟨parts, hs, rfl⟩
  | cons c acc => exact ⟨_, .literal (by simp) h hl hs, rfl⟩

/-- The scan and the characters gathered before it give the segments of the grammar. -/
theorem exists_splits {acc cs : List Char} (h : Run acc.reverse cs) :
    ∃ parts, Splits (acc.reverse ++ cs) parts ∧
      gather acc (scan 0 cs) = parts.map Part.segment := by
  induction hl : cs.length using Nat.strongRecOn generalizing acc cs with
  | ind l ih =>
    subst hl
    cases cs with
    | nil =>
      obtain ⟨parts, hs, hg⟩ := Splits.nil.exists_flush h (by simp)
      exact ⟨parts, hs, (List.append_nil _).symm.trans hg⟩
    | cons c cs =>
      cases hat : at? (c :: cs) with
      | none =>
        have hrun : Run (c :: acc).reverse cs := Run.pass h (.char (shut_of_at? hat))
        obtain ⟨parts, hs, hg⟩ := ih cs.length (Nat.lt_succ_self _) hrun rfl
        rw [List.reverse_cons, List.append_assoc] at hs
        exact ⟨parts, hs, by rw [scan_of_shut hat, gather, hg]⟩
      | some raw =>
        obtain ⟨rest, hopens⟩ := opens_of_at? hat
        rw [hopens.scan_eq]
        by_cases hb : trim raw = []
        · -- a blank match joins the characters gathered so far
          rw [hopens.spelled] at h
          have hrun := h.pass (.blank (hopens.spelled ▸ hopens) hb)
          obtain ⟨parts, hs, hg⟩ := ih rest.length hopens.length_lt hrun rfl
          rw [List.reverse_append, List.reverse_reverse, List.append_assoc,
            ← hopens.spelled] at hs
          exact ⟨parts, hs, by rw [gather_blank hb, hg]⟩
        · have hrun : Run ([] : List Char).reverse rest := .nil rest
          obtain ⟨parts, hs, hg⟩ := ih rest.length hopens.length_lt hrun rfl
          obtain ⟨parts', hs', hg'⟩ := (Splits.span hopens hb hs).exists_flush h (by simp)
          refine ⟨parts', hs', ?_⟩
          rw [gather_span hb, hg, ← hg']
          rfl

end Placeholder

open Placeholder

theorem exists_splits_segments (text : String) :
    ∃ parts, Splits text.toList parts ∧ segments text = parts.map Part.segment := by
  have hrun : Run ([] : List Char).reverse text.toList := .nil _
  exact exists_splits hrun

/-- Without what is around it, a literal run is read as the same run. -/
theorem segments_of_literal_mem {cs : List Char} {parts : List Part} (h : Splits cs parts)
    {run : List Char} (hm : .literal run ∈ parts) :
    segments (String.ofList run) = [.literal (String.ofList run)] := by
  obtain ⟨hn, rest, hrun⟩ := h.of_literal_mem hm
  obtain ⟨parts', hs', hg⟩ := exists_splits_segments (String.ofList run)
  have halone : Splits (run ++ []) [.literal run] := .literal hn hrun.alone (by simp) .nil
  rw [hg, hs'.unique halone (by rw [String.toList_ofList, List.append_nil])]
  rfl

/-- The segments of a text are those of its only parts by the grammar, which together are the text.
A body has neither a line break nor two closing braces and does not end in one. No two literal
runs are neighbours, and a literal run is its own only segment. -/
theorem segments_by_grammar (text : String) :
    ∃ parts, Splits text.toList parts ∧ (∀ parts', Splits text.toList parts' → parts' = parts) ∧
      segments text = parts.map Part.segment ∧ parts.flatMap Part.source = text.toList ∧
      (∀ raw, .span raw ∈ parts →
        trim raw ≠ [] ∧ '\n' ∉ raw ∧ ¬ ['}', '}'] <:+: raw ∧ raw.getLast? ≠ some '}') ∧
      (∀ run, .literal run ∈ parts → run ≠ []) ∧ (segments text).IsChain Segment.Apart ∧
      ∀ run, .literal run ∈ segments text → segments run = [.literal run] := by
  obtain ⟨parts, hs, hg⟩ := exists_splits_segments text
  refine ⟨parts, hs, fun parts' hs' => hs'.unique hs rfl, hg, hs.flatMap_source, fun raw hm => ?_,
    fun run hm => (hs.of_literal_mem hm).1, isChain_apart_segments text, fun run hm => ?_⟩
  · obtain ⟨hb, rest, cs, h⟩ := hs.of_span_mem hm
    exact ⟨hb, h.unbroken, h.braces_notMem, h.getLast?_ne⟩
  · rw [hg] at hm
    obtain ⟨part, hpart, he⟩ := List.mem_map.mp hm
    cases part with
    | literal run =>
      cases he
      exact segments_of_literal_mem hs hpart
    | span raw => cases he

/-- A third opening brace is part of the body, a third closing one is not, and a blank match stays
in the text around it. -/
example : segments "\x7b\x7b\x7b a\x7d\x7d\x7d \x7b\x7b \x7d\x7d b" =
    [.placeholder "\x7b a", .literal "\x7d \x7b\x7b \x7d\x7d b"] := by decide

end DesignComponents.Text
