import DesignComponents.Json.Printer
import DesignComponents.Proofs.Json.Running
import DesignComponents.Proofs.Number.Digits

/-! Reading scalars back. A quoted string is read as the string, whatever follows it, and a whole
number as the number if nothing follows that a numeral would go on with. -/

namespace DesignComponents.Json

namespace Reader

/-! ### Strings -/

theorem hexValue?_hexDigit : ∀ n < 16, Text.hexValue? (Text.hexDigit n) = some n := by decide

/-- The four digits that a control character is written with. -/
theorem fourHex_hexDigit {n : Nat} (hn : n < 32) (rest : List Char) :
    fourHex ('0' :: '0' :: Text.hexDigit (n / 16) :: Text.hexDigit (n % 16) :: rest) = .ok n := by
  have hzero : Text.hexValue? '0' = some 0 := by decide
  have hhigh := hexValue?_hexDigit (n / 16) (by omega)
  have hlow := hexValue?_hexDigit (n % 16) (by omega)
  have hvalue : n / 16 * 16 + n % 16 = n := by omega
  simp [fourHex, hzero, hhigh, hlow, hvalue]

theorem escape_control {c : Char} (hc : c.toNat < 32) (rest : List Char) :
    escape ('u' :: '0' :: '0' :: Text.hexDigit (c.toNat / 16) :: Text.hexDigit (c.toNat % 16) ::
      rest) = .ok (c, 5) := by
  have hlow : isLowSurrogate c.toNat = false := by simp [isLowSurrogate]; omega
  have hhigh : isHighSurrogate c.toNat = false := by simp [isHighSurrogate]; omega
  have hhex : hexEscape ('0' :: '0' :: Text.hexDigit (c.toNat / 16) ::
      Text.hexDigit (c.toNat % 16) :: rest) = .ok (c, 4) := by
    rw [hexEscape, fourHex_hexDigit hc]
    show (if isLowSurrogate c.toNat then _ else if isHighSurrogate c.toNat then _ else _) = _
    rw [hlow, hhigh, if_neg Bool.false_ne_true, if_neg Bool.false_ne_true, Char.ofNat_toNat]
  rw [escape, hhex]
  rfl

/-- The escape of a character is read as the character. -/
theorem stringBody_escapeChar (c : Char) (rest : List Char) :
    stringBody 0 (escapeChar c ++ rest) =
      (stringBody 0 rest).map fun r => (c :: r.1, r.2) := by
  unfold escapeChar
  split
  · simp [stringBody, escape, shortEscape?]
  · simp [stringBody, escape, shortEscape?]
  · simp [stringBody, escape, shortEscape?]
  · simp [stringBody, escape, shortEscape?]
  · simp [stringBody, escape, shortEscape?]
  · split_ifs with hback hfeed hcontrol
    · obtain rfl : c = Char.ofNat 8 := by rw [← hback, Char.ofNat_toNat]
      simp [stringBody, escape, shortEscape?]
    · obtain rfl : c = Char.ofNat 12 := by rw [← hfeed, Char.ofNat_toNat]
      simp [stringBody, escape, shortEscape?]
    · simp only [List.cons_append, List.nil_append]
      rw [stringBody, if_neg (by decide), if_pos rfl, escape_control hcontrol]
      simp [stringBody]
    · rw [List.singleton_append, stringBody, if_neg (by assumption), if_neg (by assumption),
        if_neg hcontrol]

theorem stringBody_flatMap_escapeChar (cs rest : List Char) :
    stringBody 0 (cs.flatMap escapeChar ++ '"' :: rest) = .ok (cs, rest) := by
  induction cs with
  | nil => simp [stringBody]
  | cons c cs ih =>
    rw [List.flatMap_cons, List.append_assoc, stringBody_escapeChar, ih]
    rfl

theorem toList_quoted (s : String) :
    (quoted s).toList = '"' :: (s.toList.flatMap escapeChar ++ ['"']) := by
  simp [quoted]

theorem stringHere_quoted (s : String) (rest : List Char) :
    stringHere ((quoted s).toList ++ rest) = .ok (s, rest) := by
  have hbody : ofExcept (stringBody 0) (s.toList.flatMap escapeChar ++ '"' :: rest) =
      .ok (s.toList, rest) := stringBody_flatMap_escapeChar s.toList rest
  rw [toList_quoted, List.cons_append, List.append_assoc, List.singleton_append, stringHere,
    advance_bind_cons, bind_of_ok hbody, String.ofList_toList]
  rfl

end Reader

/-! ### Whole numbers -/

/-- Nothing stands here that a numeral would go on with. -/
def Ends (rest : List Char) : Prop :=
  ∀ c ∈ rest.head?, c.isDigit = false ∧ c ≠ '.' ∧ c ≠ 'e' ∧ c ≠ 'E'

theorem ends_nil : Ends [] := fun c hc => by cases hc

theorem ends_cons {c : Char} (h : c.isDigit = false ∧ c ≠ '.' ∧ c ≠ 'e' ∧ c ≠ 'E')
    (rest : List Char) : Ends (c :: rest) := fun d hd => by
  cases hd
  exact h

namespace Numeral

/-- The value of a digit. -/
def digitValue (c : Char) : Nat := c.toNat - 48

theorem digits_append {ds rest : List Char} (hds : ∀ c ∈ ds, c.isDigit = true) (h : Ends rest) :
    digits (ds ++ rest) = (ds.map digitValue, rest) := by
  have hrest : rest.takeWhile Char.isDigit = [] ∧ rest.dropWhile Char.isDigit = rest := by
    cases rest with
    | nil => exact ⟨rfl, rfl⟩
    | cons c rest =>
      have hc := (h c rfl).1
      simp [hc]
  rw [digits, List.takeWhile_append_of_pos hds, List.dropWhile_append_of_pos hds, hrest.1, hrest.2,
    List.append_nil]
  rfl

theorem readWhole_toDigits (atEnd : Fault) (n : Nat) {rest : List Char} (h : Ends rest) :
    readWhole atEnd (Nat.toDigits 10 n ++ rest) =
      .ok ((Nat.toDigits 10 n).map digitValue, rest) := by
  have hdigits := digits_append (isDigit_of_mem_toDigits (n := n)) h
  rw [readWhole, hdigits]
  by_cases hn : n = 0
  · rw [hn]
    rfl
  · obtain ⟨c, ds, hcons, hdigit, hc⟩ := exists_toDigits_eq_cons n
    have hzero : digitValue c ≠ 0 := by
      intro hv
      rw [digitValue] at hv
      have hle : 48 ≤ c.toNat := (Char.isDigit_iff_toNat.mp hdigit).1
      exact hc hn (Char.toNat_inj.mp (by show c.toNat = 48; omega))
    rw [hcons, List.map_cons]
    split
    · simp_all
    · simp_all
    · rfl

/-- Digits of a number within the limit are all taken. -/
theorem accumulate_map_digitValue {limit : Nat} (cs : List Char) (n : Nat)
    (h : Nat.ofDigitChars 10 cs n ≤ limit) :
    accumulate limit n (cs.map digitValue) = (Nat.ofDigitChars 10 cs n, []) := by
  induction cs generalizing n with
  | nil => rfl
  | cons c cs ih =>
    have hvalue : n * 10 + digitValue c = 10 * n + (c.toNat - '0'.toNat) := by
      rw [Nat.mul_comm]
      rfl
    rw [Nat.ofDigitChars_cons] at h ⊢
    have hle := le_ofDigitChars cs (10 * n + (c.toNat - '0'.toNat))
    rw [List.map_cons, accumulate, hvalue, if_neg (by omega), ih _ h]

theorem accumulate_toDigits {limit n : Nat} (h : n ≤ limit) :
    accumulate limit 0 ((Nat.toDigits 10 n).map digitValue) = (n, []) := by
  have hvalue : Nat.ofDigitChars 10 (Nat.toDigits 10 n) 0 = n :=
    Nat.ofDigitChars_toDigits (by decide) (by decide)
  rw [accumulate_map_digitValue _ _ (by rw [hvalue]; exact h), hvalue]

theorem readFraction_of_ends (atEnd : Fault) {rest : List Char} (h : Ends rest) :
    readFraction atEnd rest = .ok (none, rest) := by
  unfold readFraction
  split
  · exact absurd rfl (h '.' rfl).2.1
  · rfl

theorem readPower_of_ends (atEnd : Fault) {rest : List Char} (h : Ends rest) :
    readPower atEnd rest = .ok (none, rest) := by
  cases rest with
  | nil => rfl
  | cons c rest =>
    obtain ⟨-, -, he, hE⟩ := h c rfl
    rw [readPower, if_neg (by simp [he, hE])]

/-- The numeral of a whole number. -/
def ofInt (n : Int) : Numeral :=
  ⟨n < 0, (Nat.toDigits 10 n.natAbs).map digitValue, none, none⟩

theorem toList_toString (n : Int) :
    (toString n).toList = (if n < 0 then ['-'] else []) ++ Nat.toDigits 10 n.natAbs := by
  cases n with
  | ofNat n =>
    show (Nat.repr n).toList = _
    have hn : ¬ Int.ofNat n < 0 := Int.not_lt.mpr (Int.natCast_nonneg n)
    rw [Nat.toList_repr, if_neg hn]
    rfl
  | negSucc n =>
    show ("-" ++ Nat.repr (n + 1)).toList = _
    rw [String.toList_append, Nat.toList_repr, if_pos (Int.negSucc_lt_zero n)]
    rfl

theorem exists_toString_eq_cons (n : Int) :
    ∃ c cs, (toString n).toList = c :: cs ∧ (c = '-' ∨ c.isDigit = true) := by
  obtain ⟨c, cs, hcons, hdigit, -⟩ := exists_toDigits_eq_cons n.natAbs
  rw [toList_toString, hcons]
  split_ifs
  · exact ⟨'-', _, rfl, .inl rfl⟩
  · exact ⟨c, cs, rfl, .inr hdigit⟩

/-- The sign of a numeral, and the digits behind it. -/
theorem read_toString (atEnd : Fault) (n : Int) {rest : List Char} (h : Ends rest) :
    read atEnd ((toString n).toList ++ rest) = .ok (ofInt n, rest) := by
  have hread (sign : Bool) : (readWhole atEnd (Nat.toDigits 10 n.natAbs ++ rest) >>= fun ws =>
      readFraction atEnd ws.2 >>= fun fs => readPower atEnd fs.2 >>= fun ps =>
        .ok ((⟨sign, ws.1, fs.1, ps.1⟩ : Numeral), ps.2)) =
      .ok (⟨sign, (Nat.toDigits 10 n.natAbs).map digitValue, none, none⟩, rest) := by
    rw [readWhole_toDigits atEnd n.natAbs h]
    show (readFraction atEnd rest >>= _) = _
    rw [readFraction_of_ends atEnd h]
    show (readPower atEnd rest >>= _) = _
    rw [readPower_of_ends atEnd h]
    rfl
  rw [toList_toString, ofInt]
  by_cases hn : n < 0
  · rw [if_pos hn, decide_eq_true hn]
    exact hread true
  · obtain ⟨c, ds, hcons, hdigit, -⟩ := exists_toDigits_eq_cons n.natAbs
    have hminus : c ≠ '-' := by
      rintro rfl
      exact absurd hdigit (by decide)
    rw [if_neg hn, decide_eq_false hn, List.nil_append, ← hread false, hcons, List.cons_append,
      read]
    exact fun cs he => hminus (List.cons.inj he).1

theorem ofInt?_value (n : Integer) : ofInt? n.value = some (.integer n) := by
  rw [ofInt?, dif_pos ⟨n.lower, n.upper⟩]

/-- A whole number that fits a word is its numeral's value. -/
theorem value_ofInt (n : Integer) : (ofInt n.value).value = .ok (.integer n) := by
  have hword : wordLimit = 18446744073709551615 := rfl
  have hlow : Int.pow 2 63 = 9223372036854775808 := rfl
  have hhigh : Int.pow 2 64 = 18446744073709551616 := rfl
  have hlower := n.lower
  have hupper := n.upper
  have hrange : n.value.natAbs ≤ wordLimit := by omega
  rw [value, ofInt, accumulate_toDigits hrange]
  show wholeValue (n.value < 0) n.value.natAbs = _
  by_cases hn : n.value < 0
  · have hne : n.value.natAbs ≠ 0 := by omega
    have habs : -(n.value.natAbs : Int) = n.value := by omega
    rw [wholeValue, decide_eq_true hn, if_pos rfl, if_neg hne, habs, ofInt?_value]
  · have habs : (n.value.natAbs : Int) = n.value := by omega
    rw [wholeValue, decide_eq_false hn, if_neg Bool.false_ne_true, habs, ofInt?_value]

end Numeral

theorem Reader.numberHere_toText (n : Integer) {rest : List Char} (h : Ends rest) :
    numberHere ((Number.integer n).toText.toList ++ rest) = .ok (.integer n, rest) := by
  have hread : ofExcept (Numeral.read .endInValue) ((toString n.value).toList ++ rest) =
      .ok (Numeral.ofInt n.value, rest) := Numeral.read_toString .endInValue n.value h
  rw [Number.toText, numberHere, bind_of_ok hread, Numeral.value_ofInt]
  rfl

end DesignComponents.Json
