import TaggedMarkup.Proofs.Cycle.Objects
import TaggedMarkup.Proofs.Tree.Forms
/-!
# Stable elements

Where nothing empty is dropped, an element that has been written is read and written again as it is,
but for a few that reading takes for something else: a number where words are expected, a null marker
in place of an object that is not blank, and a text alone that reads as a truth value or leads to a
reference. A tree without them is stable.
-/
namespace TaggedMarkup

open Encoder Markup TaggedMarkup.Tree

/-- Texts stand for themselves or for truth values here, never for numbers. -/
def takesWords : Option Resolved → Bool
  | some (.primitive .string) | some (.primitive .boolean) => true
  | _ => false

namespace Encoder

/-- An object without fields is written as a null marker. -/
def leavesBlank (e : Encoder) (s : Option Schema) : Bool :=
  (e.encode (.object []) s false .root).toOption.any fun t => decide (t.kind? = some .null)

end Encoder

/-- The type of an object by its place and by the case that it marks. -/
def Registry.typeAt (r : Registry) (s : Option Schema) (case : Option String) : Option ObjectType :=
  match s.map r.resolve with
  | some (.object o) => some o
  | some (.variant v) => (case.bind v.case?).bind r.objectOf?
  | _ => none

namespace Tree

section

variable (e : Encoder) (store : Store)

/-- Text alone is read as text: it leads to no reference where it is verbatim, and else it is no
truth value. -/
def isPlain (entries : Entries Tree) : Bool :=
  hasParts entries ||
    ((entryText? entries Marker.verbatim).all fun t => (e.convention.spelled? store t).isNone) &&
      (entryText? entries Marker.text).all fun t => (canonicalBool? t).isNone

mutual

/-- An element of a schema that is read and written again as it is. -/
def isStable : Tree → Option Schema → Bool
  | .text t, s => (Number.canonical? t).isNone || !takesWords (s.map e.registry.resolve)
  | .list items, s => areStable items s
  | .map entries, s =>
    match Tree.kind? (.map entries) with
    | some .null => e.leavesBlank s
    | some .array => isItemStable entries (itemType? (s.map e.registry.resolve)).join
    | some _ => true
    | none =>
      isPlain e store entries &&
        haveStable entries (e.registry.typeAt s (Tree.variantMarker? (.map entries)))

def areStable : List Tree → Option Schema → Bool
  | [], _ => true
  | t :: rest, s => isStable t s && areStable rest s

/-- The statement for the items of a list element. -/
def isItemStable : List (String × Tree) → Option Schema → Bool
  | [], _ => true
  | (key, t) :: rest, item =>
    (if key = Marker.item then isStable t item else true) && isItemStable rest item

/-- The statement for the entries of an object. -/
def haveStable : List (String × Tree) → Option ObjectType → Bool
  | [], _ => true
  | (key, t) :: rest, o =>
    isStable t ((declared? o key).map Field.schema) && haveStable rest o

end

end

variable {e : Encoder} {store : Store} {s : Option Schema} {entries : Entries Tree}

theorem isStable_list_iff {items : List Tree} :
    (Tree.list items).isStable e store s = true ↔ ∀ t ∈ items, t.isStable e store s = true := by
  rw [isStable]
  induction items with
  | nil => simp [areStable]
  | cons t rest ih => simp [areStable, ih]

theorem haveStable_iff {o : Option ObjectType} :
    haveStable e store entries o = true ↔ ∀ key t, (key, t) ∈ entries →
      t.isStable e store ((declared? o key).map Field.schema) = true := by
  induction entries with
  | nil => simp [haveStable]
  | cons a rest ih =>
    obtain ⟨key, t⟩ := a
    rw [Entries.forall_mem_cons, ← ih, haveStable, Bool.and_eq_true]

theorem isStable_array {items : List Tree} {item : Option Schema}
    (h : (Tree.array items).isStable e store s = true)
    (hitem : itemType? (s.map e.registry.resolve) = some item) {t : Tree} (ht : t ∈ items) :
    t.isStable e store item = true := by
  have hne : items ≠ [] := List.ne_nil_of_mem ht
  have hkey : Marker.kind ≠ Marker.item := by decide
  rw [Tree.array, if_neg (by simpa using hne), isStable, kind?_cons, hitem] at h
  have hlist : (Tree.list items).isStable e store item = true := by
    simpa [isItemStable, hkey] using h
  exact isStable_list_iff.1 hlist t ht

/-- What a stable element that marks no kind is made of. -/
theorem isStable_map (hk : Tree.kind? (.map entries) = none)
    (h : (Tree.map entries).isStable e store s = true) :
    isPlain e store entries = true ∧
      haveStable e store entries (e.registry.typeAt s (Tree.variantMarker? (.map entries))) =
        true := by
  rw [isStable, hk] at h
  exact Bool.and_eq_true_iff.1 h

end Tree

variable {r : Registry} {s : Option Schema} {o : Option ObjectType}

theorem Registry.typeAt_of_plainType? (h : plainType? (s.map r.resolve) = some o)
    (case : Option String) : r.typeAt s case = o := by
  unfold typeAt
  generalize s.map r.resolve = resolved at h
  match resolved with
  | none => exact Option.some.inj h
  | some (.primitive .unknown) => exact Option.some.inj h
  | some (.object _) => exact Option.some.inj h

theorem Registry.typeAt_of_case? {v : VariantType} {case : String} {schema : Schema}
    (hs : s.map r.resolve = some (.variant v)) (hc : v.case? case = some schema) :
    r.typeAt s (some case) = r.objectOf? schema := by
  rw [typeAt, hs]
  exact congrArg (fun c => Option.bind c r.objectOf?) hc

theorem Encoder.untypedCase?_eq (fields : Entries Value) (o : Option ObjectType) :
    untypedCase? fields o =
      if keepsCase o then (fields.get? Marker.untypedCase).bind Value.asString? else none := by
  rw [untypedCase?, keepsCase]
  cases o.any fun o => o.tag.isSome || (o.field? Marker.untypedCase).isSome <;> rfl

end TaggedMarkup
