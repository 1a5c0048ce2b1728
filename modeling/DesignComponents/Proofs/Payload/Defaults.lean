import DesignComponents.Proofs.Component.Inheritance
import DesignComponents.Proofs.Markup.Names
import DesignComponents.Proofs.Payload.Request
import DesignComponents.Proofs.Payload.Sections
import DesignComponents.Proofs.Text.Quoted

/-! Defaults in generated source. The literal of a default stands on one line and is read back as
the default. The line that sets it, in the class for the typed variant and in the constructor for
the untyped one, is in the source as it was put together, whatever the default holds. -/

namespace DesignComponents

open Identifier (Lettered)
open Text (Solid partLines)

namespace Default

/-- The default that a literal stands for. -/
def ofLiteral? (literal : String) : Option Default :=
  if literal = "true" then some (.flag true)
  else if literal = "false" then some (.flag false)
  else (Text.readQuoted literal).map .text

theorem quote_ne_word (text word : String) (h : word.toList.head? ≠ some '\'') :
    Text.quote text ≠ word := by
  rintro rfl
  rw [Text.toList_quote] at h
  exact h rfl

/-- The literal of a default is read as the default. -/
theorem ofLiteral?_literal (k : Default) : ofLiteral? k.literal = some k := by
  cases k with
  | text s =>
    rw [literal, ofLiteral?, if_neg (quote_ne_word s _ (by decide)),
      if_neg (quote_ne_word s _ (by decide)), Text.readQuoted_quote, Option.map_some]
  | flag b => cases b <;> rfl

/-- A text that looks like a flag is no flag, since it stands between apostrophes. -/
example : ofLiteral? "'true'" = some (.text "true") ∧ ofLiteral? "'it's'" = none := by decide

theorem break_notMem_literal (k : Default) :
    '\n' ∉ k.literal.toList ∧ '\r' ∉ k.literal.toList := by
  cases k with
  | text s => exact Text.break_notMem_quote s
  | flag b => cases b <;> decide

end Default

namespace Payload

/-- The line that sets the default of a property. -/
def defaultLine : Variant → Token → String
  | .typescript, k => "  " ++ k.name ++ ": " ++ k.type.name ++ " = " ++ k.default.literal ++ ";"
  | .javascript, k => "    this." ++ k.name ++ " = " ++ k.default.literal ++ ";"

theorem defaultLine_mem_propertyLines (k : Token) :
    defaultLine .typescript k ∈ Typed.propertyLines k :=
  List.mem_cons_of_mem _ (List.mem_cons_of_mem _ (List.mem_singleton_self _))

theorem defaultLine_mem_constructorLines {ks : List Token} {k : Token} (hk : k ∈ ks) :
    defaultLine .javascript k ∈ Untyped.constructorLines ks := by
  cases ks with
  | nil => cases hk
  | cons k' ks =>
    have hset : defaultLine .javascript k ∈ (k' :: ks).map (defaultLine .javascript) :=
      List.mem_map_of_mem hk
    exact List.mem_append_left _ (List.mem_append_right _ hset)

/-- A component has the line behind its style sheet. -/
theorem defaultLine_mem_closingLines {c : Component} {k : Token} (hk : k ∈ c.properties)
    (v : Variant) : defaultLine v k ∈ closingLines v c := by
  cases v with
  | typescript =>
    have hmem : defaultLine .typescript k ∈ c.properties.flatMap Typed.propertyLines :=
      List.mem_flatMap.mpr ⟨k, hk, defaultLine_mem_propertyLines k⟩
    exact List.mem_append_left _ (List.mem_append_left _ hmem)
  | javascript =>
    have hmem := defaultLine_mem_constructorLines hk
    exact List.mem_append_left _ (List.mem_append_left _ (List.mem_append_left _ hmem))

/-- Neither a name nor a literal breaks the line, and nothing is trimmed behind its semicolon. -/
theorem solid_defaultLine {k : Token} (hname : '\n' ∉ k.name.toList) (v : Variant) :
    Solid (defaultLine v k) := by
  have hliteral := k.default.break_notMem_literal.1
  have htype : '\n' ∉ k.type.name.toList := by cases k.type <;> decide
  have hend : Solid ";" := by decide
  cases v with
  | typescript => exact hend.append_left (by simp [hname, htype, hliteral])
  | javascript => exact hend.append_left (by simp [hname, hliteral])

/-- The line stands in the source of every file with the component. -/
theorem defaultLine_mem_lines {v : Variant} {cs : List Component} {c : Component} {k : Token}
    (hc : c ∈ cs) (hk : k ∈ c.properties) (hn : Lettered k.name) :
    (defaultLine v k).toList ∈ Text.lines (source v cs).toList := by
  have hsolid := solid_defaultLine (hn.notMem (by decide)) v
  have hpart : defaultLine v k ∈ sourceLines v cs := by
    rw [sourceLines_eq]
    refine List.mem_append_right _ (List.mem_flatMap.mpr ⟨c, hc, ?_⟩)
    rw [componentLines_eq]
    exact List.mem_append_right _ (defaultLine_mem_closingLines hk v)
  refine (keeps_source v cs).mem hsolid (List.mem_flatMap.mpr ⟨_, hpart, ?_⟩)
  rw [hsolid.partLines_eq]
  exact List.mem_singleton_self _

end Payload

namespace Tree

variable {o : Options} {s : Snapshot} {t : Tree}

/-- The lines for a descriptor's defaults stand in the source of its tree. -/
theorem defaultLine_mem_lines {d : Descriptor} (hd : d ∈ t.components o s) {k : Token}
    (hk : k ∈ d.properties) (v : Variant) :
    (Payload.defaultLine v k).toList ∈ Text.lines (Payload.source v (t.rendered o s)).toList := by
  have hc : Payload.Component.ofDescriptor d (d.render s (t.plan o s)) ∈ t.rendered o s :=
    List.mem_map_of_mem hd
  obtain ⟨site, -, rfl⟩ := List.mem_map.mp hd
  have hname : Lettered k.name := lettered_of_mem_propertyNames (List.mem_map_of_mem hk)
  exact Payload.defaultLine_mem_lines hc hk hname

end Tree

namespace Scene

/-- A request puts every default of every component into the payloads as a literal on one line that
is read as the default, and the line that sets it comes through the clean layout unchanged. -/
theorem defaults_survive {scene : Scene} (hb : scene.Built) {r : NodeId} (hr : scene.root = some r)
    (s : Snapshot) (p : Preferences) :
    ∃ t, scene.rootTree? = some t ∧ scene.components s p.options = .ok (t.components p.options s) ∧
      scene.compile s p =
        .ok (p.variants.map (Payload.ofComponents · (t.rendered p.options s))) ∧
      ∀ d ∈ t.components p.options s, ∀ k ∈ d.properties,
        ('\n' ∉ k.default.literal.toList ∧ '\r' ∉ k.default.literal.toList) ∧
        Default.ofLiteral? k.default.literal = some k.default ∧
        ∀ v, (Payload.defaultLine v k).toList ∈
          Text.lines (Payload.ofComponents v (t.rendered p.options s)).code.toList := by
  obtain ⟨t, ht, -, -⟩ := hb.forest.rootTree?_shows hr
  refine ⟨t, ht, components_of_rootTree? ht s p.options, compile_of_rootTree? ht s p, ?_⟩
  intro d hd k hk
  exact ⟨k.default.break_notMem_literal, k.default.ofLiteral?_literal,
    fun v => Tree.defaultLine_mem_lines hd hk v⟩

theorem labelPage_defaults_survive :
    let p : Preferences := ⟨.multi, none, .inline, [.typescript, .javascript]⟩
    labelPage.Built ∧ labelPage.root = some 0 ∧
      ∃ t, labelPage.rootTree? = some t ∧
        labelPage.components .empty p.options = .ok (t.components p.options .empty) ∧
        labelPage.compile .empty p =
          .ok (p.variants.map (Payload.ofComponents · (t.rendered p.options .empty))) ∧
        ∀ d ∈ t.components p.options .empty, ∀ k ∈ d.properties,
          ('\n' ∉ k.default.literal.toList ∧ '\r' ∉ k.default.literal.toList) ∧
          Default.ofLiteral? k.default.literal = some k.default ∧
          ∀ v, (Payload.defaultLine v k).toList ∈
            Text.lines (Payload.ofComponents v (t.rendered p.options .empty)).code.toList :=
  ⟨labelPage_built, rfl, defaults_survive labelPage_built (r := 0) rfl .empty _⟩

end Scene

end DesignComponents
