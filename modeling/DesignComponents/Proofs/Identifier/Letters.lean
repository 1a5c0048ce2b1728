import DesignComponents.Proofs.Identifier.Consistency

/-! The characters of names. Every name that a table gives is made of ASCII letters, digits, dashes
and underscores, whatever text it comes from, so that none of the languages that generated
source is written in reads anything else in it. -/

namespace DesignComponents.Identifier

def isNameChar (c : Char) : Bool := c.isAlphanum || c = '-' || c = '_'

theorem isNameChar_of_isAlphanum {c : Char} (h : c.isAlphanum = true) : isNameChar c = true := by
  simp [isNameChar, h]

/-- A text of name characters. -/
def Lettered (name : String) : Prop := ∀ c ∈ name.toList, isNameChar c = true

instance (name : String) : Decidable (Lettered name) := List.decidableBAll _ _

theorem Lettered.notMem {name : String} (h : Lettered name) {c : Char}
    (hc : isNameChar c = false) : c ∉ name.toList := fun hm =>
  absurd (h c hm) (by simp [hc])

namespace Namespace

/-- Letters, digits and dashes become a base by adding nothing but name characters. -/
theorem lettered_normalize (space : Namespace) (raw : String) : Lettered (space.normalize raw) := by
  have hcased : ∀ c ∈ space.orFallback (space.cased raw.toList), isNameChar c = true := by
    intro c hc
    cases hr : space.cased raw.toList with
    | nil =>
      have hfallback : space.fallback.all isNameChar = true := by cases space <;> decide
      rw [hr] at hc
      exact List.all_eq_true.mp hfallback c hc
    | cons d ds =>
      rw [hr] at hc
      rcases isAlphanum_or_dash_of_mem_cased (hr ▸ hc : c ∈ space.cased raw.toList) with h | rfl
      · exact isNameChar_of_isAlphanum h
      · decide
  have hguarded : ∀ c ∈ space.guarded (space.orFallback (space.cased raw.toList)),
      isNameChar c = true := by
    have hguard : space.guard.all isNameChar = true := by cases space <;> decide
    generalize space.orFallback (space.cased raw.toList) = name at hcased
    cases name with
    | nil => exact hcased
    | cons d ds =>
      rw [guarded]
      split_ifs
      · exact List.forall_mem_append.mpr ⟨List.all_eq_true.mp hguard, hcased⟩
      · exact hcased
  have hending : space.ending.all isNameChar = true := by cases space <;> decide
  rw [Lettered, normalize, String.toList_ofList, ended]
  split_ifs
  · exact hguarded
  · exact List.forall_mem_append.mpr ⟨hguarded, List.all_eq_true.mp hending⟩

end Namespace

namespace Table

theorem lettered_numbered {base : String} (h : Lettered base) (k : Nat) :
    Lettered (numbered base k) := by
  cases k with
  | zero => exact h
  | succ k =>
    rw [Lettered, toList_numbered_succ, List.forall_mem_append, List.forall_mem_cons]
    refine ⟨h, by decide, fun c hc => isNameChar_of_isAlphanum ?_⟩
    have hdigit := Nat.isDigit_of_mem_toDigits (by decide) (by decide) hc
    simp [Char.isAlphanum, hdigit]

/-- All names of a table are made of name characters. -/
def Lettered (t : Table) : Prop := ∀ e ∈ t.entries, Identifier.Lettered e.name

theorem lettered_empty : empty.Lettered := fun e he => by cases he

theorem Lettered.assignAll {t : Table} (h : t.Lettered) (rs : List Request) :
    (t.assignAll rs).Lettered := by
  have hbase : ∀ (space : Namespace) raw k,
      Identifier.Lettered (numbered (space.normalize raw) k) :=
    fun space raw k => lettered_numbered (space.lettered_normalize raw) k
  have hnames : t.Names fun _ name => Identifier.Lettered name := h
  exact hnames.assignAll hbase rs

/-- A thing without a name has the empty text for its name. -/
theorem Lettered.nameOf {t : Table} (h : t.Lettered) (space : Namespace) (entity : Entity) :
    Identifier.Lettered (t.nameOf space entity) := by
  cases hn : t.lookup space entity with
  | none =>
    rw [Table.nameOf, hn]
    exact fun c hc => by cases hc
  | some name =>
    rw [nameOf_eq hn]
    exact h _ (mem_entries_of_lookup hn)

end Table

end DesignComponents.Identifier
