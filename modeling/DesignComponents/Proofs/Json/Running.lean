import DesignComponents.Json.Reader

/-! Running readers. One reader after another runs on what the first leaves, and does not run at all
if the first one fails. -/

namespace DesignComponents.Json.Reader

variable {α β : Type}

theorem bind_of_ok {read : Reader α} {next : α → Reader β} {cs rest : List Char} {a : α}
    (h : read cs = .ok (a, rest)) : (read >>= next) cs = next a rest := by
  show (read cs >>= fun p => next p.1 p.2) = next a rest
  rw [h]
  rfl

theorem bind_of_error {read : Reader α} {next : α → Reader β} {cs : List Char} {f : Fault}
    (h : read cs = .error f) : (read >>= next) cs = .error f := by
  show (read cs >>= fun p => next p.1 p.2) = .error f
  rw [h]
  rfl

theorem bind_eq_ok_iff {read : Reader α} {next : α → Reader β} {cs rest : List Char} {b : β} :
    (read >>= next) cs = .ok (b, rest) ↔
      ∃ a mid, read cs = .ok (a, mid) ∧ next a mid = .ok (b, rest) := by
  cases h : read cs with
  | error f =>
    rw [bind_of_error h]
    simp
  | ok r =>
    obtain ⟨a, rest⟩ := r
    rw [bind_of_ok h]
    constructor
    · exact fun hb => ⟨a, rest, rfl, hb⟩
    · rintro ⟨a, mid, he, hb⟩
      cases he
      exact hb

theorem map_eq_ok_iff {f : α → β} {read : Reader α} {cs rest : List Char} {b : β} :
    (f <$> read) cs = .ok (b, rest) ↔ ∃ a, read cs = .ok (a, rest) ∧ f a = b := by
  show (read >>= fun a => pure (f a)) cs = _ ↔ _
  rw [bind_eq_ok_iff]
  constructor
  · rintro ⟨a, mid, ha, hb⟩
    cases hb
    exact ⟨a, ha, rfl⟩
  · rintro ⟨a, ha, rfl⟩
    exact ⟨a, rest, ha, rfl⟩

/-- White space in front of the next character is passed over. -/
theorem peek_eq (cs : List Char) :
    peek cs = .ok ((cs.dropWhile isSpace).head?, cs.dropWhile isSpace) := rfl

theorem peek_cons {c : Char} (hc : isSpace c = false) (cs : List Char) :
    peek (c :: cs) = .ok (some c, c :: cs) := by
  rw [peek_eq, List.dropWhile_cons_of_neg (by simp [hc])]
  rfl

/-- What starts with a look at the next character goes on with that character. -/
theorem peek_bind_cons {c : Char} (hc : isSpace c = false) (next : Option Char → Reader α)
    (cs : List Char) : (peek >>= next) (c :: cs) = next (some c) (c :: cs) :=
  bind_of_ok (peek_cons hc cs)

theorem advance_bind_cons (next : Unit → Reader α) (c : Char) (cs : List Char) :
    (advance >>= next) (c :: cs) = next () cs := rfl

theorem remaining_bind (next : Nat → Reader α) (cs : List Char) :
    (remaining >>= next) cs = next cs.length cs := rfl

/-- Nothing but white space is left behind a value that fills the text. -/
theorem ofText_eq_ok_iff {read : Reader α} {text : String} {a : α} :
    ofText read text = .ok a ↔
      ∃ rest, read text.toList = .ok (a, rest) ∧ rest.dropWhile isSpace = [] := by
  rw [ofText]
  cases read text.toList with
  | error f =>
    constructor
    · intro h
      cases h
    · rintro ⟨rest, h, -⟩
      cases h
  | ok r =>
    obtain ⟨b, rest⟩ := r
    dsimp only [Bind.bind, Except.bind]
    constructor
    · intro h
      split at h
      · cases h
        exact ⟨rest, rfl, by assumption⟩
      · cases h
    · rintro ⟨mid, he, hmid⟩
      cases he
      rw [hmid]

end DesignComponents.Json.Reader
