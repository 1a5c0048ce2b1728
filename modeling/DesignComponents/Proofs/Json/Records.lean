import DesignComponents.Document.Printer
import DesignComponents.Json.Record
import DesignComponents.Proofs.Collections
import DesignComponents.Proofs.Json.Decoding

/-! Reading printed records and maps. A record takes a field that it knows and has not met yet as
the field's own reader does; a map takes its entries in their order. -/

namespace DesignComponents.Json

open Reader

variable {α σ : Type}

theorem decodes_string (s : String) : Decodes (fun _ => Reader.string) (string s) s :=
  (decodes_stringHere s).of_head (toList_quoted s) fun _ => rfl

/-- A name is read as what it stands for first. -/
theorem decodes_choice {names : List (String × α)} {name : String} {a : α}
    (h : names.find? (fun n => n.1 = name) = some (name, a)) :
    Decodes (fun depth => choice depth names) (string name) a := by
  have hname : Decodes (fun _ => nameIn names) (string name) a := by
    refine (decodes_stringHere name).bind fun rest => ?_
    rw [h]
    rfl
  exact hname.of_head (toList_quoted name) fun _ => rfl

/-! ### Records -/

/-- A field that is met for the first time. -/
theorem takes_field {r : Nat → Record σ} {f : Nat → Field σ} {key : String} {v : Json} {s s' : σ}
    (hf : ∀ depth, (r depth).fields.find? (·.answersTo key) = some (f depth))
    (hnew : ∀ depth, (f depth).filled s = false)
    (h : Decodes (fun depth => (f depth).read s) v s') :
    Takes (fun depth => (r depth).objectField) [(key, v)] s s' := by
  refine .singleton h fun depth => ?_
  rw [Record.objectField, hf]
  show (if (f depth).filled s = true then _ else _) = _
  rw [if_neg (by simp [hnew])]

/-- A record is read field by field. -/
theorem decodes_record {r : Nat → Record σ} {fs : List (String × Json)} {s s' : σ}
    (h : Takes (fun depth => (r depth).objectField) fs s s') (rs : Nat → Nat → Record σ)
    (hrs : ∀ depth, rs (depth + 1) depth = r depth) :
    Decodes (fun depth => Record.read depth (rs depth) s) (object fs) s' :=
  (decodes_objectHere h (fun depth d => (rs depth d).objectField) fun depth => by
    rw [hrs]).of_head (text_object fs) fun _ => rfl

/-! ### Maps -/

/-- The step from one entry of a map to the next. -/
def mapStep (read : Nat → Reader α) (depth : Nat) (key : String) (m : OrderedMap String α) :
    Reader (OrderedMap String α) := do
  colon
  let v ← read depth
  pure (m.insert key v)

theorem takes_mapStep {read : Nat → Reader α} {f : α → Json} {es : List (String × α)}
    (h : ∀ e ∈ es, Decodes read (f e.2) e.2) {m m' : OrderedMap String α}
    (hm' : m'.entries = m.entries ++ es) :
    Takes (mapStep read) (es.map fun e => (e.1, f e.2)) m m' := by
  induction es generalizing m with
  | nil =>
    obtain rfl : m = m' := OrderedMap.ext (by rw [hm', List.append_nil])
    exact .nil m
  | cons e es ih =>
    rw [List.forall_mem_cons] at h
    have hnew : e.1 ∉ m.entries.map Prod.fst := by
      have hnodup := m'.nodup_keys
      rw [hm', List.map_append, List.nodup_append] at hnodup
      exact fun hmem => hnodup.2.2 e.1 hmem e.1 List.mem_cons_self rfl
    have hinsert : (m.insert e.1 e.2).entries = m.entries ++ [e] :=
      OrderedMap.insertEntry_of_notMem hnew e.2
    have hvalue : Decodes (fun depth => read depth >>= fun v => pure (m.insert e.1 v)) (f e.2)
        (m.insert e.1 e.2) := h.1.bind fun _ => rfl
    have hfirst : Takes (mapStep read) [(e.1, f e.2)] m (m.insert e.1 e.2) :=
      .singleton hvalue fun _ => rfl
    exact hfirst.append (ih h.2 (by rw [hm', hinsert, List.append_assoc, List.singleton_append]))

theorem decodes_map {read : Nat → Reader α} {f : α → Json} {m : OrderedMap String α}
    (h : ∀ e ∈ m.entries, Decodes read (f e.2) e.2) :
    Decodes (fun depth => Reader.map depth read) (m.toJson f) m := by
  have hentries : Takes (mapStep read) (m.entries.map fun e => (e.1, f e.2)) ∅ m :=
    takes_mapStep h (List.nil_append _).symm
  exact (decodes_objectHere hentries (fun _ => mapStep read) fun _ => rfl).of_head (text_object _)
    fun _ => rfl

theorem decodes_stringMap (m : OrderedMap String String) :
    Decodes (fun depth => Reader.map depth fun _ => Reader.string) (m.toJson string) m :=
  decodes_map fun e _ => decodes_string e.2

end DesignComponents.Json
