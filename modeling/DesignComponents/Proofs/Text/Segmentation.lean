import DesignComponents.Text.Placeholder
import Mathlib.Data.List.Chain

/-! The segments of a text. Splitting a text loses nothing: its literal runs stand in it as they
are, its placeholders between braces and maybe with white space around their bodies. A literal
run is as long as it can be, so that no two of them follow each other. -/

namespace DesignComponents.Text

/-- The segments spell the text. -/
inductive Spells : List Segment → List Char → Prop
  | nil : Spells [] []
  | literal (text : List Char) {segments : List Segment} {rest : List Char}
      (h : Spells segments rest) : Spells (.literal (String.ofList text) :: segments) (text ++ rest)
  | placeholder {raw body : List Char} (hraw : trim raw = body) (hbody : body ≠ [])
      {segments : List Segment} {rest : List Char} (h : Spells segments rest) :
      Spells (.placeholder (String.ofList body) :: segments) (Placeholder.spell raw ++ rest)

def Segment.isLiteral : Segment → Bool
  | literal _ => true
  | placeholder _ => false

/-- At least one of two neighbours is a placeholder. -/
def Segment.Apart (a b : Segment) : Prop := a.isLiteral = true → b.isLiteral = false

namespace Placeholder

theorem eq_of_body? {cs raw : List Char} (h : body? cs = some raw) :
    ∃ rest, cs = raw ++ '}' :: '}' :: rest := by
  fun_induction body? cs generalizing raw with
  | case1 => cases h
  | case2 cs => cases h
  | case3 rest =>
    cases h
    exact ⟨rest, rfl⟩
  | case4 c cs hn hb ih =>
    obtain ⟨raw', hraw', rfl⟩ := Option.map_eq_some_iff.mp h
    obtain ⟨rest, rfl⟩ := ih hraw'
    exact ⟨rest, rfl⟩

/-- A match is spelled where it starts. -/
theorem eq_of_at? {cs raw : List Char} (h : at? cs = some raw) :
    ∃ rest, cs = spell raw ++ rest := by
  fun_cases at? cs with
  | case1 cs =>
    obtain ⟨rest, rfl⟩ := eq_of_body? h
    exact ⟨rest, by simp [spell]⟩
  | case2 cs hcs => simp [at?] at h

/-- The text that a scan has met. -/
def Piece.source : Piece → List Char
  | char c => [c]
  | span raw => spell raw

/-- A scan meets all of the text but what belongs to the last match. -/
theorem flatMap_source_scan (skip : Nat) (cs : List Char) :
    (scan skip cs).flatMap Piece.source = cs.drop skip := by
  induction cs generalizing skip with
  | nil => cases skip <;> rfl
  | cons c cs ih =>
    cases skip with
    | succ skip => rw [scan, ih, List.drop_succ_cons]
    | zero =>
      rw [scan]
      split
      · next raw hraw =>
        obtain ⟨rest, hrest⟩ := eq_of_at? hraw
        rw [List.flatMap_cons, ih, List.drop_zero, Piece.source, hrest]
        -- behind the first brace the match goes on for its body and three braces
        have hcs : cs = '{' :: raw ++ ['}', '}'] ++ rest := (List.cons.inj hrest).2
        congr 1
        rw [hcs, List.drop_append_of_le_length (by simp)]
        simp
      · rw [List.flatMap_cons, ih]
        rfl

theorem spells_flush (acc : List Char) {segments : List Segment} {rest : List Char}
    (h : Spells segments rest) : Spells (flush acc ++ segments) (acc.reverse ++ rest) := by
  cases acc with
  | nil => exact h
  | cons c acc => exact .literal (c :: acc).reverse h

theorem spells_gather (acc : List Char) (pieces : List Piece) :
    Spells (gather acc pieces) (acc.reverse ++ pieces.flatMap Piece.source) := by
  fun_induction gather acc pieces with
  | case1 acc => simpa using spells_flush acc .nil
  | case2 acc c pieces ih => simpa [Piece.source] using ih
  | case3 acc raw pieces hraw ih => simpa [Piece.source, hraw] using ih
  | case4 acc raw pieces c cs hraw ih =>
    exact spells_flush acc (.placeholder hraw (List.cons_ne_nil c cs) ih)

/-- Literal runs are gathered until a placeholder comes. -/
theorem isChain_apart_gather (acc : List Char) (pieces : List Piece) :
    (gather acc pieces).IsChain Segment.Apart := by
  fun_induction gather acc pieces with
  | case1 acc => cases acc <;> simp [flush]
  | case2 acc c pieces ih => exact ih
  | case3 acc raw pieces hraw ih => exact ih
  | case4 acc raw pieces c cs hraw ih =>
    have hcons : (Segment.placeholder (String.ofList (c :: cs)) :: gather [] pieces).IsChain
        Segment.Apart :=
      List.isChain_cons.mpr ⟨fun b _ hb => absurd hb Bool.false_ne_true, ih⟩
    cases acc with
    | nil => exact hcons
    | cons d acc => exact List.isChain_cons_cons.mpr ⟨fun _ => rfl, hcons⟩

end Placeholder

theorem spells_segments (text : String) : Spells (segments text) text.toList := by
  have h := Placeholder.spells_gather [] (Placeholder.scan 0 text.toList)
  rwa [Placeholder.flatMap_source_scan] at h

theorem isChain_apart_segments (text : String) : (segments text).IsChain Segment.Apart :=
  Placeholder.isChain_apart_gather _ _

end DesignComponents.Text
