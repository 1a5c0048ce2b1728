import DesignComponents.Proofs.Component.Classes
import DesignComponents.Proofs.Payload.Agreement
import DesignComponents.Proofs.Payload.Assembly

/-! The names that a file imports. Every class of a file extends one of them, the base class of the
library, and none of them is reserved for classes. A class never has the name of another import,
but it has the name of the base class if the words of a display name make it. -/

namespace DesignComponents

open Identifier (Namespace Table pascal)

/-! ### Reading imports -/

namespace Payload

/-- The names between the braces of an import, at commas. -/
def boundNames (line : List Char) : List String :=
  let inside := (line.dropWhile (· ≠ '\x7b')).tail.takeWhile (· ≠ '\x7d')
  ((inside.filter (· ≠ ' ')).splitOn ',').map String.ofList

/-- The names that a file imports in its first lines. -/
def imported (v : Variant) (code : String) : List String :=
  ((Text.lines code.toList).take (importCount v)).flatMap boundNames

/-- What the typed variant imports besides, given whether some component declares a property. -/
def decorators : Variant → Bool → List String
  | .typescript, declares => "customElement" :: if declares then ["property"] else []
  | .javascript, _ => []

theorem boundNames_libraryLine :
    boundNames libraryLine.toList = ["LitElement", "html", "css"] := by decide +kernel

theorem boundNames_decoratorsLine (declares : Bool) :
    boundNames ("import \x7b customElement" ++ (if declares then ", property" else "") ++
      " \x7d from 'lit/decorators.js';").toList = decorators .typescript declares := by
  cases declares <;> decide +kernel

theorem imported_source (v : Variant) (cs : List Component) :
    imported v (source v cs) =
      ["LitElement", "html", "css"] ++ decorators v (cs.any (!·.properties.isEmpty)) := by
  have hcount : ((header v cs).map String.toList).length = importCount v := by cases v <;> rfl
  rw [imported, lines_source, List.take_left' hcount, List.flatMap_map]
  cases v with
  | typescript =>
    rw [header, Typed.header, List.flatMap_cons, List.flatMap_singleton, boundNames_libraryLine,
      boundNames_decoratorsLine]
  | javascript =>
    rw [header, Untyped.header, List.flatMap_singleton, boundNames_libraryLine]
    rfl

/-- No class has the name of something that its file imports. -/
def KeepsImports (v : Variant) (code : String) (ds : List Descriptor) : Prop :=
  ∀ d ∈ ds, d.className ∉ imported v code

end Payload

/-! ### Names of classes and imports -/

namespace Identifier.Namespace

/-- A class does not start with a small letter. -/
theorem exists_cons_of_spells_className {name : String} (h : className.Spells name) :
    ∃ c cs, name.toList = c :: cs ∧ c.isLower = false := by
  obtain ⟨base, counter, hname, ⟨hbase, -⟩, -⟩ := h
  cases hbase with
  | @letter c cs hc hcs =>
    refine ⟨c, cs ++ counter, hname, ?_⟩
    rw [isUpper_iff] at hc
    rw [← Bool.not_eq_true, isLower_iff]
    omega
  | @digit c cs hc hcs => exact ⟨'_', c :: cs ++ counter, hname, by decide⟩

/-- The display names from which a class gets the name of the base class. -/
theorem normalize_className_eq_iff (raw : String) :
    className.normalize raw = "LitElement" ↔
      pascal raw.toList = "Lit".toList ∨ pascal raw.toList = "LitElement".toList := by
  have hending : className.ending = "Element".toList := rfl
  have hsplit : "LitElement".toList = "Lit".toList ++ "Element".toList := by decide
  rw [← String.toList_inj, normalize, String.toList_ofList, cased]
  cases hname : pascal raw.toList with
  | nil => exact iff_of_false (by decide) (by decide)
  | cons c cs =>
    rw [orFallback, guarded]
    split_ifs with hdigit
    · -- the guard stands in front of the digit, so that neither side starts with the right letter
      have hletter : c ≠ 'L' := fun hc => by
        rw [hc] at hdigit
        exact absurd hdigit (by decide)
      have hcons : ∃ rest, className.ended (className.guard ++ c :: cs) = '_' :: rest := by
        rw [ended]
        split_ifs <;> exact ⟨_, rfl⟩
      obtain ⟨rest, hrest⟩ := hcons
      rw [hrest]
      exact iff_of_false (by simp) (by simp [hletter])
    · rw [ended, hending]
      split_ifs with hsuffix
      · refine ⟨.inr, fun h => h.resolve_left fun hlit => ?_⟩
        exact absurd (hlit ▸ hsuffix) (by decide)
      · rw [hsplit, List.append_cancel_right_eq, ← hsplit]
        refine ⟨.inl, fun h => h.resolve_right fun hlit => ?_⟩
        exact absurd (hlit ▸ hsuffix) (by decide)

/-- Nothing that is imported but the base class can be the name of a class. -/
theorem mem_imports_iff {name : String} (h : className.Spells name) (v : Variant)
    (declares : Bool) :
    name ∈ ["LitElement", "html", "css"] ++ Payload.decorators v declares ↔
      name = "LitElement" := by
  obtain ⟨c, cs, hname, hc⟩ := exists_cons_of_spells_className h
  have hsmall : ∀ other ∈ ["html", "css"] ++ Payload.decorators v declares,
      other.toList.head?.any Char.isLower = true := by
    cases v <;> cases declares <;> decide
  rw [List.cons_append, List.mem_cons, or_iff_left_iff_imp]
  intro hm
  have hlower := hsmall name hm
  rw [hname] at hlower
  simp [hc] at hlower

end Identifier.Namespace

namespace Payload

/-- A file declares the classes of some components and derives them from what it imports. -/
structure Derives (v : Variant) (ds : List Descriptor) (code : String) : Prop where
  imported_eq : imported v code =
    ["LitElement", "html", "css"] ++ decorators v (ds.any (!·.properties.isEmpty))
  line_mem : ∀ d ∈ ds, ("export class " ++ d.className ++ " extends LitElement \x7b").toList ∈
    Text.lines code.toList
  /-- The base class is the only import whose name a class can have. -/
  mem_imported_iff : ∀ d ∈ ds, d.className ∈ imported v code ↔ d.className = "LitElement"

/-- The line that opens a class stands in the source. -/
theorem classLine_mem_lines {c : Component} {cs : List Component} (hc : c ∈ cs) (h : c.Unbroken)
    (v : Variant) : (classLine c).toList ∈ Text.lines (source v cs).toList := by
  have hline : classLine c ∈ sourceLines v cs := by
    rw [sourceLines_eq, List.mem_append, List.mem_flatMap]
    refine .inr ⟨c, hc, ?_⟩
    rw [componentLines_eq]
    cases v <;> simp [openingLines]
  refine (keeps_source v cs).mem h.solid_classLine (List.mem_flatMap.mpr ⟨_, hline, ?_⟩)
  rw [h.solid_classLine.partLines_eq]
  exact List.mem_singleton_self _

end Payload

namespace Tree

variable {o : Options} {s : Snapshot} {t : Tree}

theorem derives_source (hspells : ∀ d ∈ t.components o s, Namespace.className.Spells d.className)
    (v : Variant) :
    Payload.Derives v (t.components o s) (Payload.source v (t.rendered o s)) := by
  have hdeclares : (t.rendered o s).any (!·.properties.isEmpty) =
      (t.components o s).any (!·.properties.isEmpty) := List.any_map
  have himported := Payload.imported_source v (t.rendered o s)
  rw [hdeclares] at himported
  refine ⟨himported, fun d hd => ?_, fun d hd => ?_⟩
  · have hc : Payload.Component.ofDescriptor d (d.render s (t.plan o s)) ∈ t.rendered o s :=
      List.mem_map_of_mem hd
    exact Payload.classLine_mem_lines hc (unbroken_of_mem_rendered hc) v
  · rw [himported]
    exact Namespace.mem_imports_iff (hspells d hd) v _

end Tree

namespace Scene

/-- Which components have the class name of their base class. -/
structure TakesBaseName (scene : Scene) (ds : List Descriptor) : Prop where
  base_iff : ∀ d ∈ ds, ∃ n, scene.node? d.origin = some n ∧
    (scene.classBase d = "LitElement" ↔
      pascal n.name.toList = "Lit".toList ∨ pascal n.name.toList = "LitElement".toList)
  className_iff : ∀ before d after, ds = before ++ d :: after →
    (d.className = "LitElement" ↔ scene.classBase d = "LitElement" ∧
      ∀ m ∈ scene.closedBefore before d after, scene.classBase m ≠ "LitElement")

theorem normalize_litElement : Namespace.className.normalize "LitElement" = "LitElement" := by
  decide +kernel

theorem NumberedAtClosing.takesBaseName {scene : Scene} {ds : List Descriptor}
    (h : scene.NumberedAtClosing ds) : scene.TakesBaseName ds where
  base_iff := by
    intro d hd
    obtain ⟨n, hn, hbase⟩ := h.base_eq d hd
    exact ⟨n, hn, by rw [hbase, Namespace.normalize_className_eq_iff]⟩
  className_iff := by
    intro before d after hd
    rw [← normalize_litElement]
    exact h.className_eq_normalize_iff hd _

/-- A file keeps what it imports exactly if the words of no component's name make the name of the
base class. If they do, the first such component to be closed gets this name for its class. -/
theorem imports_kept_iff {scene : Scene} (hb : scene.Built) {r : NodeId}
    (hr : scene.root = some r) (s : Snapshot) (p : Preferences) :
    ∃ ds payloads, scene.components s p.options = .ok ds ∧ scene.compile s p = .ok payloads ∧
      scene.TakesBaseName ds ∧
      List.Forall₂ (fun v payload => Payload.Derives v ds payload.code ∧
        (Payload.KeepsImports v payload.code ds ↔ ∀ d ∈ ds, scene.classBase d ≠ "LitElement"))
        p.variants payloads := by
  have hf := hb.forest
  obtain ⟨t, ht, hsh, -⟩ := hf.rootTree?_shows hr
  have hclosing := hsh.numberedAtClosing hf s p.options
  have htakes := hclosing.takesBaseName
  refine ⟨t.components p.options s, _, components_of_rootTree? ht s p.options,
    compile_of_rootTree? ht s p, htakes, ?_⟩
  rw [List.forall₂_map_right_iff, List.forall₂_same]
  intro v _
  have hderives := Tree.derives_source (fun d => hclosing.spells_className) v
  refine ⟨hderives, fun hkeeps d hd hbase => ?_, fun hnone d hd hmem => ?_⟩
  · obtain ⟨first, hfirst, hname⟩ := hsh.exists_className_eq_base hf hd
    exact hkeeps first hfirst ((hderives.mem_imported_iff first hfirst).mpr (hname.trans hbase))
  · obtain ⟨before, after, hsplit⟩ := List.append_of_mem hd
    have hname := (hderives.mem_imported_iff d hd).mp hmem
    exact hnone d hd ((htakes.className_iff before d after hsplit).mp hname).1

/-- A page by the name of the library. -/
def litPage : Scene := empty.addRoot (.ofNode (.plain .frame "Lit"))

theorem litPage_built : litPage.Built := Built.empty.addRoot (Slot.fresh_ofNode _)

theorem litPage_imports_kept_iff :
    litPage.Built ∧ litPage.root = some 0 ∧
      ∃ ds payloads, litPage.components .empty Preferences.standard.options = .ok ds ∧
        litPage.compile .empty .standard = .ok payloads ∧ litPage.TakesBaseName ds ∧
        List.Forall₂ (fun v payload => Payload.Derives v ds payload.code ∧
          (Payload.KeepsImports v payload.code ds ↔
            ∀ d ∈ ds, litPage.classBase d ≠ "LitElement"))
          Preferences.standard.variants payloads :=
  ⟨litPage_built, rfl, imports_kept_iff litPage_built (r := 0) rfl .empty .standard⟩

/-- The class of the page is to extend the base class and extends itself. -/
theorem litPage_not_keepsImports :
    litPage.Built ∧ ∃ d payload,
      litPage.components .empty Preferences.standard.options = .ok [d] ∧
      litPage.compile .empty .standard = .ok [payload] ∧
      "export class LitElement extends LitElement \x7b".toList ∈ Text.lines payload.code.toList ∧
      ¬ Payload.KeepsImports .typescript payload.code [d] := by
  obtain ⟨t, d, ht, hd, hname⟩ : ∃ t d, litPage.rootTree? = some t ∧
      t.components Preferences.standard.options .empty = [d] ∧ d.className = "LitElement" :=
    ⟨_, _, rfl, rfl, by decide +kernel⟩
  have hds : litPage.components .empty Preferences.standard.options = .ok [d] := by
    rw [components_of_rootTree? ht, hd]
  have hpayloads : litPage.compile .empty .standard =
      .ok [.ofComponents .typescript (t.rendered Preferences.standard.options .empty)] := by
    rw [compile_of_rootTree? ht]
    rfl
  obtain ⟨c, hc, hclass⟩ : ∃ c ∈ t.rendered Preferences.standard.options .empty,
      c.className = "LitElement" :=
    ⟨_, List.mem_map_of_mem (hd ▸ List.mem_cons_self), hname⟩
  have hline := Payload.classLine_mem_lines hc (Tree.unbroken_of_mem_rendered hc) .typescript
  have hspelled : "export class " ++ "LitElement" ++ " extends LitElement \x7b" =
      "export class LitElement extends LitElement \x7b" := by decide
  rw [Payload.classLine, hclass, hspelled] at hline
  refine ⟨litPage_built, d, _, hds, hpayloads, ?_, fun hkeeps => hkeeps d List.mem_cons_self ?_⟩
  · simpa only [Payload.ofComponents] using hline
  · rw [Payload.ofComponents, Payload.imported_source, hname]
    exact List.mem_cons_self

end Scene

end DesignComponents
