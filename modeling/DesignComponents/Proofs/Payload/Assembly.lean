import DesignComponents.Proofs.Payload.Sections

/-! The assembly of files. Behind what it imports, a file is its components one after the other: what
is written for some of them is what is written for each of them alone. Only the imports depend
on all of the components, by a single fact about them. -/

namespace DesignComponents

namespace Text

/-- What stands behind the first lines. -/
def dropLines : Nat → List Char → List Char
  | 0, cs => cs
  | n + 1, cs => dropLines n (cs.dropWhile (· ≠ '\n')).tail

theorem dropLines_unlines {above : List (List Char)} (h : ∀ l ∈ above, '\n' ∉ l)
    (below : List (List Char)) :
    dropLines above.length (unlines (above ++ below)) = unlines below := by
  induction above with
  | nil => rfl
  | cons l above ih =>
    rw [List.forall_mem_cons] at h
    have hne : ∀ c ∈ l, decide (c ≠ '\n') = true := fun c hc => by
      have hc' : c ≠ '\n' := fun he => h.1 (he ▸ hc)
      simpa using hc'
    have hcons : unlines (l :: above ++ below) = l ++ '\n' :: unlines (above ++ below) := by
      simp [unlines]
    rw [List.length_cons, dropLines, hcons, List.dropWhile_append_of_pos hne]
    exact ih h.2

end Text

namespace Payload

open Text (laid unlines)

/-- The number of lines that a file starts with before its components. -/
def importCount : Variant → Nat
  | .typescript => 2
  | .javascript => 1

/-- What these lines are, given whether some component declares a property. -/
def imports : Variant → Bool → String
  | .typescript, declares =>
    libraryLine ++ "\n" ++ "import \x7b customElement" ++ (if declares then ", property" else "") ++
      " \x7d from 'lit/decorators.js';" ++ "\n"
  | .javascript, _ => libraryLine ++ "\n"

/-- A file without its imports. -/
def body (v : Variant) (cs : List Component) : String :=
  String.ofList (Text.dropLines (importCount v) (source v cs).toList)

theorem toList_source (v : Variant) (cs : List Component) :
    (source v cs).toList = unlines ((header v cs).map String.toList ++
      cs.flatMap fun c => laid (componentLines v c)) := by
  rw [source_eq_layOut, Text.toList_layOut, laid_sourceLines]

theorem body_eq (v : Variant) (cs : List Component) :
    body v cs = String.ofList (unlines (cs.flatMap fun c => laid (componentLines v c))) := by
  have hcount : importCount v = ((header v cs).map String.toList).length := by cases v <;> rfl
  have hbreaks : ∀ l ∈ (header v cs).map String.toList, '\n' ∉ l :=
    List.forall_mem_map.mpr fun part hpart => (settled_header v cs).break_notMem part hpart
  rw [body, toList_source, hcount, Text.dropLines_unlines hbreaks]

theorem toList_imports (v : Variant) (cs : List Component) :
    (imports v (cs.any (!·.properties.isEmpty))).toList =
      unlines ((header v cs).map String.toList) := by
  have hbreak : "\n".toList = ['\n'] := rfl
  cases v with
  | typescript =>
    simp only [imports, header, Typed.header, unlines, List.map_cons, List.map_nil,
      List.flatMap_cons, List.flatMap_nil, List.append_nil, String.toList_append, hbreak,
      List.append_assoc]
  | javascript =>
    simp only [imports, header, Untyped.header, unlines, List.map_cons, List.map_nil,
      List.flatMap_cons, List.flatMap_nil, List.append_nil, String.toList_append, hbreak]

theorem body_append (v : Variant) (as bs : List Component) :
    body v (as ++ bs) = body v as ++ body v bs := by
  simp only [body_eq, List.flatMap_append, unlines, String.ofList_append]

theorem source_eq_imports (v : Variant) (cs : List Component) :
    source v cs = imports v (cs.any (!·.properties.isEmpty)) ++ body v cs := by
  rw [← String.toList_inj, String.toList_append, toList_imports, body_eq, String.toList_ofList,
    toList_source, unlines, List.flatMap_append]
  rfl

theorem body_eq_join (v : Variant) (cs : List Component) :
    body v cs = String.join (cs.map fun c => body v [c]) := by
  induction cs with
  | nil =>
    rw [body_eq]
    rfl
  | cons c cs ih =>
    rw [← List.singleton_append, body_append, ih, List.singleton_append, List.map_cons,
      String.join_cons]

/-- What a file says about its components behind the imports is put together from what files with
one component each say. The imports depend on the components only by whether one of them
declares a property. -/
theorem assembly_compositional (v : Variant) :
    (∀ as bs, body v (as ++ bs) = body v as ++ body v bs) ∧
      (∀ cs, body v cs = String.join (cs.map fun c => body v [c])) ∧
      ∀ cs, source v cs = imports v (decide (∃ c ∈ cs, c.properties ≠ [])) ++ body v cs := by
  refine ⟨body_append v, body_eq_join v, fun cs => ?_⟩
  have hdeclares : cs.any (!·.properties.isEmpty) = decide (∃ c ∈ cs, c.properties ≠ []) := by
    rw [Bool.eq_iff_iff, List.any_eq_true, decide_eq_true_eq]
    simp
  rw [← hdeclares]
  exact source_eq_imports v cs

end Payload

end DesignComponents
