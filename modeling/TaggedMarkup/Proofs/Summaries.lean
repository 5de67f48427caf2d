import TaggedMarkup.Proofs.Deployment
import TaggedMarkup.Proofs.Occurrences
/-!
# Summaries of visualizations

A packed workbook carries one summary for each of its lists of visualizations. A summary names every
script id in its list once, where it first occurs, and gives the position of the last visualization
that has it. Positions count all items of the list, those without a script id too.
-/
namespace TaggedMarkup

open Deployment

namespace Deployment

/-- The text of the script id that a visualization has under a case. -/
def scriptId? (case : String) : Value → Option String
  | .object fields =>
    match Entries.get? fields case with
    | some (.object visualization) =>
      (Entries.get? visualization "scriptId").bind Value.scalarText?
    | _ => none
  | _ => none

/-- The items of a list field; other fields have none. -/
def listed (a : Artifact) (field : String) : List Value :=
  match a.field? field with
  | some (.list items) => items
  | _ => []

/-- The item at a position has a script id that no later item has. -/
structure LastAt (case : String) (items : List Value) (id : String) (i : Nat) : Prop where
  here : items[i]?.bind (scriptId? case) = some id
  later : ∀ j, i < j → items[j]?.bind (scriptId? case) ≠ some id

/-- The script ids of a list in the order of their first occurrences, each with its last position. A
position beyond the signed range would be shown as the greatest signed integer. -/
structure Summarizes (case : String) (items : List Value) (entries : Entries Value) : Prop where
  keys : InFirstOrder (items.filterMap (scriptId? case)) entries.keys
  entry : ∀ id v, (id, v) ∈ entries → ∃ i, LastAt case items id i ∧ ∃ h,
    v = .object [("scriptid", .string id),
      ("index", .number (.integer (min i 9223372036854775807) h))]

variable {case id : String} {items : List Value} {entries : Entries Value} {v : Value} {i : Nat}

/-- A case is no position, so only an object has it. -/
theorem scriptId?_eq (h : Value.readPosition? case = none) (v : Value) :
    scriptId? case v = (v.getPath? [case, "scriptId"]).bind Value.scalarText? := by
  have hposition : Value.readPosition? "scriptId" = none := by decide
  rw [Value.getPath?_cons, Option.bind_assoc]
  cases v with
  | object fields =>
    simp only [scriptId?, Value.step?]
    cases Entries.get? fields case with
    | none => rfl
    | some w =>
      rw [Option.bind_some, Value.getPath?_cons, Option.bind_assoc]
      cases w with
      | object visualization => rfl
      | list items =>
        rw [Value.step?, hposition]
        rfl
      | _ => rfl
  | list items =>
    rw [Value.step?, h]
    rfl
  | _ => rfl

/-! ## One more item -/

theorem LastAt.lt_length (h : LastAt case items id i) : i < items.length := by
  by_contra hge
  have hhere := h.here
  rw [List.getElem?_eq_none (Nat.not_lt.1 hge)] at hhere
  cases hhere

/-- An item without the script id changes nothing. -/
theorem LastAt.append (h : LastAt case items id i) (hv : scriptId? case v ≠ some id) :
    LastAt case (items ++ [v]) id i := by
  refine ⟨?_, fun j hj => ?_⟩
  · rw [List.getElem?_append_left h.lt_length]
    exact h.here
  · rcases Nat.lt_trichotomy j items.length with hlt | rfl | hgt
    · rw [List.getElem?_append_left hlt]
      exact h.later j hj
    · rw [List.getElem?_concat_length]
      exact hv
    · rw [List.getElem?_eq_none (by rw [List.length_append]; exact hgt)]
      exact nofun

theorem lastAt_length (hv : scriptId? case v = some id) :
    LastAt case (items ++ [v]) id items.length := by
  refine ⟨?_, fun j hj => ?_⟩
  · rw [List.getElem?_concat_length]
    exact hv
  · rw [List.getElem?_eq_none (by rw [List.length_append]; exact hj)]
    exact nofun

theorem Summarizes.append_none (h : Summarizes case items entries)
    (hv : scriptId? case v = none) : Summarizes case (items ++ [v]) entries := by
  constructor
  · rw [List.filterMap_append, List.filterMap_cons_none hv, List.filterMap_nil, List.append_nil]
    exact h.keys
  · intro id w hm
    obtain ⟨i, hi, hw⟩ := h.entry id w hm
    exact ⟨i, hi.append (by simp [hv]), hw⟩

/-- The entry of a script id that occurs again is replaced where it stands. -/
theorem Summarizes.append_some (h : Summarizes case items entries)
    (hv : scriptId? case v = some id) :
    Summarizes case (items ++ [v]) (entries.insert id (summaryEntry id items.length)) := by
  constructor
  · rw [List.filterMap_append, List.filterMap_cons_some hv, List.filterMap_nil]
    exact Entries.inFirstOrder_insert h.keys _ _
  · intro other w hm
    have hdistinct := Entries.distinct_insert h.keys.nodup id (summaryEntry id items.length)
    have hget := (Entries.get?_eq_some_iff hdistinct).2 hm
    rw [Entries.get?_insert] at hget
    by_cases hid : id = other
    · subst hid
      rw [if_pos rfl] at hget
      obtain rfl := Option.some.inj hget
      exact ⟨items.length, lastAt_length hv, _, rfl⟩
    · rw [if_neg hid] at hget
      obtain ⟨i, hi, hw⟩ := h.entry other w (Entries.mem_of_get?_eq_some hget)
      exact ⟨i, hi.append (by simp [hv, hid]), hw⟩

/-! ## Whole lists -/

theorem summaryEntries_append (h : Value.readPosition? case = none) (items : List Value)
    (v : Value) (start : Nat) : summaryEntries case (items ++ [v]) start =
      summaryEntries case items start ++
        ((scriptId? case v).map fun id => (id, summaryEntry id (start + items.length))).toList := by
  induction items generalizing start with
  | nil =>
    simp only [scriptId?_eq h, List.nil_append, summaryEntries]
    cases (v.getPath? [case, "scriptId"]).bind Value.scalarText? <;> rfl
  | cons w rest ih =>
    have hposition : start + 1 + rest.length = start + (w :: rest).length := by
      rw [List.length_cons]
      omega
    rw [List.cons_append, summaryEntries, summaryEntries, ih, hposition]
    cases (w.getPath? [case, "scriptId"]).bind Value.scalarText? <;> rfl

theorem summarizes_summaryEntries (h : Value.readPosition? case = none) (items : List Value) :
    Summarizes case items (Entries.ofPairs (summaryEntries case items 0)) := by
  induction items using List.reverseRecOn with
  | nil => exact ⟨.nil, by simp [summaryEntries, Entries.ofPairs, Entries.extend]⟩
  | append_singleton items v ih =>
    rw [summaryEntries_append h, Nat.zero_add]
    cases hv : scriptId? case v with
    | none =>
      rw [Option.map_none, Option.toList_none, List.append_nil]
      exact ih.append_none hv
    | some id =>
      rw [Option.map_some, Option.toList_some, Entries.ofPairs_append_singleton]
      exact ih.append_some hv

theorem exists_summary (a : Artifact) (field case title : String)
    (h : Value.readPosition? case = none) : ∃ entries, summary a.fields field case title =
      .object [(title, .object entries)] ∧ Summarizes case (listed a field) entries := by
  have hitems : ((a.fields.get? field).bind Value.asList?).getD [] = listed a field := by
    have hfield : a.fields.get? field = a.field? field := rfl
    rw [hfield, listed]
    cases a.field? field with
    | none => rfl
    | some v => cases v <;> rfl
  refine ⟨_, rfl, ?_⟩
  rw [hitems]
  exact summarizes_summaryEntries h _

end Deployment

namespace Profile

variable {p : Profile} {a b : Artifact}

/-- A packed workbook has a summary of each of its lists: of its pivots and charts under the names of
the lists, and of its data views as tables. -/
theorem pack_summarizes (hkind : a.kind = "workbook") (h : p.pack a = .ok b) :
    (∃ entries, b.field? "pivots" = some (.object [("pivot", .object entries)]) ∧
      Summarizes "pivot" (listed a "pivots") entries) ∧
    (∃ entries, b.field? "charts" = some (.object [("chart", .object entries)]) ∧
      Summarizes "chart" (listed a "charts") entries) ∧
    ∃ entries, b.field? "tables" = some (.object [("table", .object entries)]) ∧
      Summarizes "dataView" (listed a "dataViews") entries := by
  obtain ⟨-, text, -, rfl⟩ := pack_eq_ok_iff.1 h
  have hfield : ∀ key v, Entries.get? (summaries a.kind a.fields) key = some v →
      key ≠ definition → (a.withValue (.object (packedFields a text))).field? key = some v := by
    intro key v hsummary hkey
    have hpacked : (a.withValue (.object (packedFields a text))).field? key =
        (packedFields a text).get? key := rfl
    rw [hpacked, get?_packedFields, Entries.get?_cons, if_neg (Ne.symm hkey), hsummary]
    rfl
  have hsummaries : summaries a.kind a.fields = [
      ("pivots", summary a.fields "pivots" "pivot" "pivot"),
      ("charts", summary a.fields "charts" "chart" "chart"),
      ("tables", summary a.fields "dataViews" "dataView" "table")] := if_pos hkind
  obtain ⟨pivots, hpivots, hp⟩ := exists_summary a "pivots" "pivot" "pivot" (by decide)
  obtain ⟨charts, hcharts, hc⟩ := exists_summary a "charts" "chart" "chart" (by decide)
  obtain ⟨tables, htables, ht⟩ := exists_summary a "dataViews" "dataView" "table" (by decide)
  refine ⟨⟨pivots, hfield _ _ ?_ (by decide), hp⟩, ⟨charts, hfield _ _ ?_ (by decide), hc⟩,
    tables, hfield _ _ ?_ (by decide), ht⟩
  · rw [hsummaries, ← hpivots]
    rfl
  · rw [hsummaries, ← hcharts]
    rfl
  · rw [hsummaries, ← htables]
    rfl

/-- A pivot as a list of visualizations holds it. -/
def pivot (fields : List (String × Value)) : Value := .object [("pivot", .object fields)]

/-- Pivots of which one has no script id, and two have the same as a number and as a text. -/
def pivots : List Value :=
  [pivot [("scriptId", .number (.ofNat 5))], pivot [("order", .null)],
    pivot [("scriptId", .string "q")], pivot [("scriptId", .string "5")]]

def gallery : Artifact := ⟨⟨["a"]⟩, "workbook", .object [("pivots", .list pivots)]⟩

theorem pack_summarizes_gallery : ∃ b, gallery.kind = "workbook" ∧ Profile.pack {} gallery = .ok b ∧
    ∃ entries : Entries Value, b.field? "pivots" = some (.object [("pivot", .object entries)]) ∧
      InFirstOrder ["5", "q", "5"] (Entries.keys entries) ∧
      ∃ h, ("5", .object [("scriptid", .string "5"), ("index", .number (.integer 3 h))]) ∈
        entries := by
  have hsucceeds : (Profile.pack {} gallery).toOption.isSome = true := by decide +kernel
  cases hpack : Profile.pack {} gallery with
  | error error =>
    rw [hpack] at hsucceeds
    cases hsucceeds
  | ok b =>
    obtain ⟨entries, hfield, hsummary⟩ := (pack_summarizes (p := {}) (a := gallery) rfl hpack).1
    have hids : (listed gallery "pivots").filterMap (scriptId? "pivot") = ["5", "q", "5"] := by
      decide
    have hkeys := hsummary.keys
    rw [hids] at hkeys
    obtain ⟨v, hv⟩ := Entries.exists_of_mem_keys ((hkeys.mem_iff "5").2 List.mem_cons_self)
    obtain ⟨i, hlast, hi, rfl⟩ := hsummary.entry "5" v hv
    have hlt : i < 4 := hlast.lt_length
    have hge : ¬ i < 3 := fun hlt => hlast.later 3 hlt (by decide)
    obtain rfl : i = 3 := by omega
    exact ⟨b, rfl, rfl, entries, hfield, hkeys, hi, hv⟩

end Profile

end TaggedMarkup
