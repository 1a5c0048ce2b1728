import DesignComponents.Proofs.Json.Decoding
import Mathlib.Data.List.Forall2

/-! Values that are read back as they are: those without doubles, in which the fields of every
object stand in ascending order of their keys. -/

namespace DesignComponents.Json

open Reader

/-- Holds no double. The keys of every object ascend, as they do in objects that are kept. -/
inductive Exact : Json → Prop where
  | null : Exact null
  | bool (b : Bool) : Exact (bool b)
  | integer (n : Integer) : Exact (number (.integer n))
  | string (s : String) : Exact (string s)
  | array {items : List Json} (entries : ∀ v ∈ items, Exact v) : Exact (array items)
  | object {fields : List (String × Json)} (entries : ∀ f ∈ fields, Exact f.2)
      (ascending : (fields.map Prod.fst).Pairwise (· < ·)) : Exact (object fields)

theorem Exact.isNoDouble {v : Json} (h : v.Exact) : v.IsNoDouble := by
  rintro d rfl
  cases h

/-- A key above all others comes last. -/
theorem insertSorted_of_lt {key : String} {fs : List (String × Json)}
    (h : ∀ k ∈ fs.map Prod.fst, k < key) (v : Json) :
    insertSorted key v fs = fs ++ [(key, v)] := by
  induction fs with
  | nil => rfl
  | cons f fs ih =>
    rw [List.map_cons, List.forall_mem_cons] at h
    have hne : key ≠ f.1 := fun he => String.lt_irrefl _ (he ▸ h.1)
    rw [insertSorted, if_neg (String.lt_asymm h.1), if_neg hne, ih h.2, List.cons_append]

namespace Reader

/-- What is inside the brackets of a value. -/
def inner : Nat → Reader Json
  | 0 => fail .tooDeep
  | depth + 1 => value depth

theorem value_eq : value = fun depth => valueWith depth (inner depth) := by
  funext depth
  cases depth <;> rfl

/-- The step from one field of an object to the next. -/
def fieldStep (entry : Reader Json) (key : String) (acc : List (String × Json)) :
    Reader (List (String × Json)) := do
  colon
  let v ← entry
  pure (insertSorted key v acc)

theorem takes_fieldStep {fs acc : List (String × Json)} (h : ∀ f ∈ fs, Decodes value f.2 f.2)
    (hacc : ((acc ++ fs).map Prod.fst).Pairwise (· < ·)) :
    Takes (fun depth => fieldStep (value depth)) fs acc (acc ++ fs) := by
  -- what has been read stands in front, so the next key is above all keys that are there
  induction fs generalizing acc with
  | nil =>
    rw [List.append_nil]
    exact .nil acc
  | cons f fs ih =>
    rw [List.forall_mem_cons] at h
    have hlast : insertSorted f.1 f.2 acc = acc ++ [f] := by
      rw [List.map_append, List.pairwise_append] at hacc
      exact insertSorted_of_lt (fun k hk => hacc.2.2 k hk f.1 List.mem_cons_self) f.2
    have hinsert : Decodes (fun depth => value depth >>= fun v => pure (insertSorted f.1 v acc)) f.2
        (acc ++ [f]) := h.1.bind fun _ => by rw [hlast]; rfl
    have hfirst : Takes (fun depth => fieldStep (value depth)) [f] acc (acc ++ [f]) :=
      .singleton hinsert fun _ => rfl
    rw [List.append_cons] at hacc ⊢
    exact hfirst.append (ih h.2 hacc)

end Reader

/-- Exact values are read back as they are. -/
theorem decodes_value {v : Json} (h : Exact v) : Decodes value v v := by
  rw [value_eq]
  induction h with
  | null =>
    refine ⟨Exact.null.isNoDouble, fun depth rest _ => ?_⟩
    rw [nesting, if_pos (Nat.zero_le depth)]
    rfl
  | bool b =>
    refine ⟨(Exact.bool b).isNoDouble, fun depth rest _ => ?_⟩
    rw [nesting, if_pos (Nat.zero_le depth)]
    cases b <;> rfl
  | integer n =>
    have hnumber : Decodes (fun _ => numberHere) (number (.integer n)) (.integer n) := by
      refine ⟨(Exact.integer n).isNoDouble, fun depth rest hr => ?_⟩
      rw [nesting, if_pos (Nat.zero_le depth)]
      exact numberHere_toText n hr
    obtain ⟨c, cs, hcons, hc⟩ := Numeral.exists_toString_eq_cons n.value
    have hne (e : Char) (hminus : e ≠ '-') (hdigit : e.isDigit = false) : some c ≠ some e :=
      fun he => ne_of_numeral hc hminus hdigit (Option.some.inj he)
    refine (hnumber.map Json.number).of_head hcons fun depth => ?_
    split
    · exact absurd ‹_› (hne 'n' (by decide) (by decide))
    · exact absurd ‹_› (hne 't' (by decide) (by decide))
    · exact absurd ‹_› (hne 'f' (by decide) (by decide))
    · exact absurd ‹_› (hne '"' (by decide) (by decide))
    · exact absurd ‹_› (hne '[' (by decide) (by decide))
    · exact absurd ‹_› (hne '\x7b' (by decide) (by decide))
    · rename_i heq
      cases heq
      exact if_pos hc
    · rename_i heq
      cases heq
  | string s =>
    exact ((decodes_stringHere s).map Json.string).of_head (toList_quoted s) fun _ => rfl
  | @array vs _ ih =>
    have hvs : List.Forall₂ (Decodes value) vs vs := List.forall₂_same.mpr (by rwa [value_eq])
    exact ((decodes_listHere hvs inner fun _ => rfl).map Json.array).of_head (text_array vs)
      fun _ => rfl
  | @object fs _ hasc ih =>
    have hfs : Takes (fun depth => fieldStep (value depth)) fs [] fs :=
      takes_fieldStep (by rwa [value_eq]) hasc
    exact ((decodes_objectHere hfs (fun depth _ => fieldStep (inner depth)) fun _ => rfl).map
      Json.object).of_head (text_object fs) fun _ => rfl

end DesignComponents.Json
