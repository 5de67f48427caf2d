import TaggedMarkup.Proofs.Decoding.Lookups
import TaggedMarkup.Reference.Collection
import TaggedMarkup.Schema.Analytics
/-!
# Looking up candidates only

Decoding asks for the candidates of a tree and for nothing else, as long as no reference hides in a
case entry: one that is no text marks no case, and is decoded like any field although no candidate
is taken from it. Main statement: the candidates resolved alone give the value that every entry
resolved would give.
-/
namespace TaggedMarkup

namespace Tree

mutual

/-- The entries that the texts inside spell, wherever they stand. -/
def spelled (c : Convention) : Tree → List EntryPath
  | text t => (c.parse? t).toList
  | list items => spelledInItems c items
  | map entries => spelledInEntries c entries

def spelledInItems (c : Convention) : List Tree → List EntryPath
  | [] => []
  | t :: rest => spelled c t ++ spelledInItems c rest

def spelledInEntries (c : Convention) : List (String × Tree) → List EntryPath
  | [] => []
  | (_, t) :: rest => spelled c t ++ spelledInEntries c rest

end

mutual

/-- A case entry that marks no case has no candidates, which those of the tree would leave out. -/
def hasBlankCases (c : Convention) : Tree → Bool
  | text _ => true
  | list items => haveBlankCases c items
  | map entries =>
    match kind? (map entries) with
    | some .array => itemHasBlankCases c entries
    | some _ => true
    | none => entriesHaveBlankCases c (variantMarker? (map entries)).isSome entries

def haveBlankCases (c : Convention) : List Tree → Bool
  | [] => true
  | t :: rest => hasBlankCases c t && haveBlankCases c rest

/-- Those in the items of a list element. -/
def itemHasBlankCases (c : Convention) : List (String × Tree) → Bool
  | [] => true
  | (key, t) :: rest => if key = Marker.item then hasBlankCases c t else itemHasBlankCases c rest

def entriesHaveBlankCases (c : Convention) (marked : Bool) : List (String × Tree) → Bool
  | [] => true
  | (key, t) :: rest =>
    (marked || key != Marker.variant || (candidates c t).isEmpty) && hasBlankCases c t &&
      entriesHaveBlankCases c marked rest

end

/-! ## Candidates are spelt somewhere -/

section

variable {c : Convention} {p : EntryPath}

mutual

theorem mem_spelled_of_mem_candidates (t : Tree) (h : p ∈ t.candidates c) : p ∈ t.spelled c := by
  match t with
  | .text t =>
    rw [candidates] at h
    rw [spelled]
    exact h
  | .list items =>
    rw [candidates] at h
    rw [spelled]
    exact mem_spelledInItems items h
  | .map entries =>
    rw [candidates] at h
    rw [spelled]
    split at h
    · exact mem_spelledInEntries_of_item entries h
    · cases h
    · exact mem_spelledInEntries entries h

theorem mem_spelledInItems (items : List Tree) (h : p ∈ candidatesOfItems c items) :
    p ∈ spelledInItems c items := by
  match items with
  | [] => cases h
  | t :: rest =>
    rw [candidatesOfItems, List.mem_append] at h
    rw [spelledInItems, List.mem_append]
    exact h.imp (mem_spelled_of_mem_candidates t) (mem_spelledInItems rest)

theorem mem_spelledInEntries_of_item (entries : List (String × Tree))
    (h : p ∈ candidatesOfItem c entries) : p ∈ spelledInEntries c entries := by
  match entries with
  | [] => cases h
  | (key, t) :: rest =>
    rw [candidatesOfItem] at h
    rw [spelledInEntries, List.mem_append]
    split at h
    · exact .inl (mem_spelled_of_mem_candidates t h)
    · exact .inr (mem_spelledInEntries_of_item rest h)

theorem mem_spelledInEntries (entries : List (String × Tree))
    (h : p ∈ candidatesOfEntries c entries) : p ∈ spelledInEntries c entries := by
  match entries with
  | [] => cases h
  | (key, t) :: rest =>
    rw [candidatesOfEntries, List.mem_append] at h
    rw [spelledInEntries, List.mem_append]
    refine h.imp (fun h => ?_) (mem_spelledInEntries rest)
    split at h
    · cases h
    · exact mem_spelled_of_mem_candidates t h

end

end

end Tree

/-! ## Tables that agree on the candidates -/

namespace Decoder

variable (d : Decoder) (r : Resolutions)

mutual

/-- Two tables that agree on the candidates of a tree lead to the same value. -/
theorem decode_of_agree (t : Tree) (hint : Option Schema) (ht : t.hasBlankCases d.convention = true)
    (h : ∀ p ∈ t.candidates d.convention, r.get? p = d.resolutions.get? p) :
    ({ d with resolutions := r } : Decoder).decode t hint = d.decode t hint := by
  match t with
  | .text t =>
    have hreference : ({ d with resolutions := r } : Decoder).reference? t = d.reference? t := by
      unfold reference?
      cases hp : d.convention.parse? t with
      | none => rfl
      | some p => exact h p (by simp [Tree.candidates, hp])
    rw [decode, decode, scalar, scalar, hreference]
    rfl
  | .list items =>
    rw [Tree.hasBlankCases] at ht
    rw [Tree.candidates] at h
    rw [decode, decode, decodeItems_of_agree items _ ht h]
    rfl
  | .map entries =>
    rw [Tree.hasBlankCases] at ht
    rw [Tree.candidates] at h
    cases hkind : Tree.kind? (.map entries) with
    | some kind =>
      cases kind with
      | array =>
        rw [hkind] at ht h
        simp only [decode, hkind, decodeItem_of_agree entries _ ht h]
        rfl
      | _ => simp only [decode, hkind]
    | none =>
      rw [hkind] at ht h
      cases hcase : Tree.variantMarker? (.map entries) with
      | none =>
        rw [hcase] at ht
        simp only [decode, hkind, hcase, decodeFields_of_agree false entries _ ht h]
        rfl
      | some case =>
        rw [hcase] at ht
        simp only [decode, hkind, hcase, decodeFields_of_agree true entries _ ht h]

theorem decodeItems_of_agree (items : List Tree) (hint : Option Schema)
    (ht : Tree.haveBlankCases d.convention items = true)
    (h : ∀ p ∈ Tree.candidatesOfItems d.convention items, r.get? p = d.resolutions.get? p) :
    ({ d with resolutions := r } : Decoder).decodeItems items hint = d.decodeItems items hint := by
  match items with
  | [] => rfl
  | t :: rest =>
    rw [Tree.haveBlankCases, Bool.and_eq_true] at ht
    rw [Tree.candidatesOfItems, List.forall_mem_append] at h
    simp only [decodeItems, decode_of_agree t _ ht.1 h.1, decodeItems_of_agree rest _ ht.2 h.2]
    rfl

theorem decodeItem_of_agree (entries : List (String × Tree)) (hint : Option Schema)
    (ht : Tree.itemHasBlankCases d.convention entries = true)
    (h : ∀ p ∈ Tree.candidatesOfItem d.convention entries, r.get? p = d.resolutions.get? p) :
    ({ d with resolutions := r } : Decoder).decodeItem entries hint =
      d.decodeItem entries hint := by
  match entries with
  | [] => rfl
  | (key, t) :: rest =>
    rw [Tree.itemHasBlankCases] at ht
    rw [Tree.candidatesOfItem] at h
    by_cases hk : key = Marker.item
    · rw [if_pos hk] at ht h
      cases t with
      | list items =>
        rw [Tree.hasBlankCases] at ht
        rw [Tree.candidates] at h
        simp only [decodeItem, if_pos hk, decodeItems_of_agree items _ ht h]
      | text t =>
        simp only [decodeItem, if_pos hk, decode_of_agree (.text t) _ ht h]
        rfl
      | map inner =>
        simp only [decodeItem, if_pos hk, decode_of_agree (.map inner) _ ht h]
        rfl
    · rw [if_neg hk] at ht h
      cases t <;> simp only [decodeItem, if_neg hk, decodeItem_of_agree rest _ ht h]

theorem decodeFields_of_agree (skipCase : Bool) (entries : List (String × Tree))
    (o : Option ObjectType)
    (ht : Tree.entriesHaveBlankCases d.convention skipCase entries = true)
    (h : ∀ p ∈ Tree.candidatesOfEntries d.convention entries, r.get? p = d.resolutions.get? p) :
    ({ d with resolutions := r } : Decoder).decodeFields skipCase entries o =
      d.decodeFields skipCase entries o := by
  match entries with
  | [] => rfl
  | (key, t) :: rest =>
    rw [Tree.entriesHaveBlankCases, Bool.and_eq_true, Bool.and_eq_true] at ht
    obtain ⟨⟨hblank, ht⟩, hrest⟩ := ht
    rw [Tree.candidatesOfEntries, List.forall_mem_append] at h
    rw [decodeFields, decodeFields, decodeFields_of_agree skipCase rest o hrest h.2]
    by_cases hv : skipCase = true ∧ key = Marker.variant
    · rw [if_pos hv, if_pos hv]
    · rw [if_neg hv, if_neg hv]
      by_cases ha : Marker.isAttribute key = true
      · simp only [ha, if_true]
        rfl
      · -- A case entry that is decoded here has no candidates to agree on.
        have hknown : ∀ p ∈ t.candidates d.convention, r.get? p = d.resolutions.get? p := by
          by_cases hk : key = Marker.variant
          · have hskip : skipCase = false := by simpa [hk] using hv
            have hnone : t.candidates d.convention = [] := by simpa [hk, hskip] using hblank
            simp [hnone]
          · rw [if_neg (not_or.2 ⟨hk, ha⟩)] at h
            exact h.1
        simp only [ha, Bool.false_eq_true, if_false, decode_of_agree t _ ht hknown]
        rfl

end

/-- The candidates resolved alone give the value that every entry resolved gives, in a tree where
none hides in a case entry. -/
theorem decode_candidates (registry : Registry) (c : Convention) (keepEmpty : Bool) (store : Store)
    (root : Tree) (hcases : root.hasBlankCases c = true) (full : Resolutions)
    (hfull : ∀ p ∈ root.spelled c, full.get? p = c.resolve? store p) :
    (∀ hint, decode ⟨registry, c, c.resolveAll store (root.candidates c), keepEmpty⟩ root hint =
      decode ⟨registry, c, full, keepEmpty⟩ root hint) ∧
    ∀ schema,
      decodeDocument ⟨registry, c, c.resolveAll store (root.candidates c), keepEmpty⟩ root schema =
        decodeDocument ⟨registry, c, full, keepEmpty⟩ root schema := by
  have hdecode : ∀ hint,
      decode ⟨registry, c, c.resolveAll store (root.candidates c), keepEmpty⟩ root hint =
        decode ⟨registry, c, full, keepEmpty⟩ root hint := by
    intro hint
    refine decode_of_agree ⟨registry, c, full, keepEmpty⟩ _ root hint hcases fun p hp => ?_
    have hscanned := @knows_resolveAll store registry c keepEmpty root p hp
    exact hscanned.trans (hfull p (Tree.mem_spelled_of_mem_candidates root hp)).symm
  refine ⟨hdecode, fun schema => ?_⟩
  rw [decodeDocument, decodeDocument, hdecode]

/-- A store whose one collection has one entry. -/
def labels : Store :=
  Store.empty.insert (Convention.standard.collection "custcollectiontranslations_a" ["b"])

/-- A reference beside a text that no store knows, under a case. -/
def labelled : Tree := .map [("criteria", .map [(Marker.variant, .text "filter"),
  ("caption", .text "custcollectiontranslations_a.b"),
  ("note", .text "custcollectiontranslations_a.c")])]

theorem decode_candidates_labelled :
    labelled.hasBlankCases .standard = true ∧
      (∀ p ∈ labelled.spelled .standard, (Convention.standard.resolveAll labels
        (labelled.spelled .standard)).get? p = Convention.standard.resolve? labels p) ∧
      decodeDocument ⟨Analytics.registry, .standard, Convention.standard.resolveAll labels
          (labelled.candidates .standard), false⟩ labelled (.named "dataSet") =
        decodeDocument ⟨Analytics.registry, .standard, Convention.standard.resolveAll labels
          (labelled.spelled .standard), false⟩ labelled (.named "dataSet") := by
  have hcases : labelled.hasBlankCases .standard = true := by decide +kernel
  have hfull : ∀ p ∈ labelled.spelled .standard, (Convention.standard.resolveAll labels
      (labelled.spelled .standard)).get? p = Convention.standard.resolve? labels p := by
    intro p hp
    rw [Convention.get?_resolveAll, if_pos hp]
  exact ⟨hcases, hfull, (decode_candidates _ _ false labels labelled hcases _ hfull).2 _⟩

/-- A reference below a case entry that is no text. -/
def overlooked : Tree := .map [("criteria", .map [(Marker.variant,
  .map [("caption", .text "custcollectiontranslations_a.b")])])]

/-- It is no candidate, and stays a text although the store knows its entry. -/
theorem case_entry_overlooked :
    (∀ p ∈ overlooked.spelled .standard, (Convention.standard.resolveAll labels
      (overlooked.spelled .standard)).get? p = Convention.standard.resolve? labels p) ∧
    decodeDocument ⟨Analytics.registry, .standard, Convention.standard.resolveAll labels
        (overlooked.candidates .standard), false⟩ overlooked (.named "dataSet") ≠
      decodeDocument ⟨Analytics.registry, .standard, Convention.standard.resolveAll labels
        (overlooked.spelled .standard), false⟩ overlooked (.named "dataSet") := by
  refine ⟨fun p hp => ?_, fun heq => ?_⟩
  · rw [Convention.get?_resolveAll, if_pos hp]
  · have hcaption := congrArg (fun v : Value =>
      (v.getPath? ["criteria", Marker.variant, "caption"]).any fun w => w.asString?.isSome) heq
    exact absurd hcaption (by decide +kernel)

end Decoder

end TaggedMarkup
