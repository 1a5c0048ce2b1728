import DesignComponents.Json.Record
import DesignComponents.Proofs.Json.Running
import Mathlib.Data.List.DropRight
import Mathlib.Data.List.Forall2

/-! Readers that follow other readers. A reader follows another one if it takes every text that the
other takes, as far as the other does, and its result is made from the other's. Records whose
fields follow each other are read from the same objects. -/

namespace DesignComponents.Json.Reader

variable {α β γ δ σ τ : Type}

/-- Takes what another reader takes; the results are made from that one's. -/
def Follows (f : α → β) (read : Reader α) (read' : Reader β) : Prop :=
  ∀ cs a rest, read cs = .ok (a, rest) → read' cs = .ok (f a, rest)

namespace Follows

theorem refl (read : Reader α) : Follows id read read := fun _ _ _ h => h

theorem pure (f : α → β) (a : α) : Follows f (Pure.pure a) (Pure.pure (f a)) := by
  intro cs b rest h
  cases h
  rfl

theorem fail (f : α → β) (e : Fault) (read : Reader β) : Follows f (Reader.fail e) read :=
  fun _ _ _ h => nomatch h

theorem bind {f : α → β} {g : γ → δ} {read : Reader α} {read' : Reader β} {next : α → Reader γ}
    {next' : β → Reader δ} (h : Follows f read read')
    (hnext : ∀ a, Follows g (next a) (next' (f a))) :
    Follows g (read >>= next) (read' >>= next') := by
  intro cs c rest hc
  obtain ⟨a, mid, ha, hc⟩ := bind_eq_ok_iff.mp hc
  rw [bind_of_ok (h cs a mid ha)]
  exact hnext a mid c rest hc

/-- Two readers that start alike. -/
theorem bind_left {g : γ → δ} (read : Reader α) {next : α → Reader γ} {next' : α → Reader δ}
    (hnext : ∀ a, Follows g (next a) (next' a)) : Follows g (read >>= next) (read >>= next') :=
  (refl read).bind hnext

end Follows

/-! ### Values that may be missing -/

/-- Takes no text at all. -/
def Refuses (read : Reader α) : Prop := ∀ cs r, read cs ≠ .ok r

theorem refuses_fail (e : Fault) : Refuses (fail e : Reader α) := fun _ _ h => nomatch h

theorem Refuses.bind {next : α → Reader β} (h : ∀ a, Refuses (next a)) (read : Reader α) :
    Refuses (read >>= next) := by
  rintro cs ⟨b, rest⟩ hb
  obtain ⟨a, mid, -, hb⟩ := bind_eq_ok_iff.mp hb
  exact h a mid _ hb

theorem refuses_mismatch (expected : String) : Refuses (mismatch expected : Reader α) := by
  refine .bind (fun c => ?_) peek
  split
  · exact .bind (fun _ => refuses_fail _) _
  · exact .bind (fun _ => refuses_fail _) _
  · exact .bind (fun _ => refuses_fail _) _
  · exact .bind (fun _ => refuses_fail _) _
  · exact refuses_fail _
  · exact refuses_fail _
  · split_ifs
    · exact .bind (fun _ => refuses_fail _) _
    · exact refuses_fail _
  · exact refuses_fail _

theorem peek_bind_dropWhile (next : Option Char → Reader α) (cs : List Char) :
    (peek >>= next) (cs.dropWhile isSpace) = (peek >>= next) cs := by
  rw [bind_of_ok (peek_eq cs), bind_of_ok (peek_eq _), List.dropWhile_idempotent]

/-- A reader that does not take the word for no value is followed where that word may stand. -/
theorem follows_optional {next : Option Char → Reader α} (hnull : Refuses (next (some 'n'))) :
    Follows some (peek >>= next) (optional (peek >>= next)) := by
  intro cs a rest h
  have hsome : (some <$> (peek >>= next)) (cs.dropWhile isSpace) = .ok (some a, rest) := by
    rw [← peek_bind_dropWhile] at h
    exact map_eq_ok_iff.mpr ⟨a, h, rfl⟩
  rw [bind_of_ok (peek_eq cs)] at h
  rw [optional, bind_of_ok (peek_eq cs)]
  generalize (cs.dropWhile isSpace).head? = d at h ⊢
  split
  · exact absurd h (hnull _ _)
  · exact hsome

/-! ### Objects -/

theorem follows_fields {f : σ → τ} {step : String → σ → Reader σ} {step' : String → τ → Reader τ}
    (hstep : ∀ key s, Follows f (step key s) (step' key (f s))) (fuel : Nat) (first : Bool)
    (s : σ) : Follows f (fields step fuel first s) (fields step' fuel first (f s)) := by
  induction fuel generalizing first s with
  | zero => exact .fail f .endInObject _
  | succ fuel ih =>
    refine .bind_left _ fun key => ?_
    cases key with
    | none => exact .pure f s
    | some key => exact (hstep key s).bind fun s => ih false s

theorem follows_objectHere {f : σ → τ} {step : Nat → String → σ → Reader σ}
    {step' : Nat → String → τ → Reader τ}
    (hstep : ∀ depth key s, Follows f (step depth key s) (step' depth key (f s))) (depth : Nat)
    (s : σ) : Follows f (objectHere depth step s) (objectHere depth step' (f s)) := by
  cases depth with
  | zero => exact .fail f .tooDeep _
  | succ depth =>
    exact .bind_left _ fun _ => .bind_left _ fun fuel =>
      (follows_fields (hstep depth) fuel true s).bind fun s => .bind_left _ fun _ => .pure f s

end DesignComponents.Json.Reader

namespace DesignComponents.Json

open Reader

variable {σ τ : Type}

/-- A field that goes by the same names as another one, is there where that one is, and whose
reader follows that one's. -/
structure Field.Follows (f : σ → τ) (field : Field σ) (field' : Field τ) : Prop where
  name_eq : field'.name = field.name
  alias_eq : field'.alias? = field.alias?
  filled_eq : ∀ s, field'.filled (f s) = field.filled s
  reads : ∀ s, Reader.Follows f (field.read s) (field'.read (f s))

namespace Record

/-- The fields that answer to a key, if there are any, follow each other. -/
theorem rel_find?_answersTo {f : σ → τ} {fields : List (Field σ)} {fields' : List (Field τ)}
    (h : List.Forall₂ (Field.Follows f) fields fields') (key : String) :
    Option.Rel (Field.Follows f) (fields.find? (·.answersTo key))
      (fields'.find? (·.answersTo key)) := by
  induction h with
  | nil => exact .none
  | @cons field field' fields fields' hf _ ih =>
    have hanswers : field'.answersTo key = field.answersTo key := by
      rw [Field.answersTo, Field.answersTo, hf.name_eq, hf.alias_eq]
    rw [List.find?_cons, List.find?_cons, hanswers]
    cases field.answersTo key with
    | true => exact .some hf
    | false => exact ih

theorem follows_objectField {f : σ → τ} {r : Record σ} {r' : Record τ}
    (h : List.Forall₂ (Field.Follows f) r.fields r'.fields) (key : String) (s : σ) :
    Follows f (r.objectField key s) (r'.objectField key (f s)) := by
  have hrel := rel_find?_answersTo h key
  rw [objectField, objectField]
  generalize r.fields.find? (·.answersTo key) = found at hrel ⊢
  generalize r'.fields.find? (·.answersTo key) = found' at hrel ⊢
  cases hrel with
  | none => exact .bind_left _ fun _ => .bind_left _ fun _ => .pure f s
  | @some field field' hf =>
    show Follows f (if field.filled s = true then _ else _)
      (if field'.filled (f s) = true then _ else _)
    rw [hf.filled_eq]
    split_ifs
    · exact .fail f _ _
    · exact .bind_left _ fun _ => hf.reads s

/-- The text of an object, behind white space. -/
def IsObject (cs : List Char) : Prop := (cs.dropWhile isSpace).head? = some '{'

instance (cs : List Char) : Decidable (IsObject cs) := inferInstanceAs (Decidable (_ = _))

/-- What is read from an object by one record is read from it by a record whose fields follow. -/
theorem read_of_follows {f : σ → τ} {r : Nat → Record σ} {r' : Nat → Record τ}
    (h : ∀ depth, List.Forall₂ (Field.Follows f) (r depth).fields (r' depth).fields) (depth : Nat)
    {start s : σ} {cs rest : List Char} (hcs : IsObject cs)
    (hread : read depth r start cs = .ok (s, rest)) :
    read depth r' (f start) cs = .ok (f s, rest) := by
  rw [read, bind_of_ok (peek_eq cs), hcs] at hread ⊢
  exact follows_objectHere (fun depth => follows_objectField (h depth)) depth start _ _ _ hread

end Record

end DesignComponents.Json
