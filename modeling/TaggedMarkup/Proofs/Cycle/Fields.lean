import TaggedMarkup.Proofs.Cycle.Settled
/-!
# Fields that encoding and decoding give back

`Lays` says how the fields of an object become entries. Here is what is read back of them, field by
field: an attribute is its text, character data is what its text settles as, and a child is decoded
under the schema of its field and dropped if it is empty. So an object comes back with its own
fields, and with those that were filled in and are not empty.
-/
namespace TaggedMarkup

open Encoder Markup TaggedMarkup.Tree

variable {e : Encoder} {store : Store} {res : Resolutions} {o : Option ObjectType} {path : Path}
  {skipCase : Bool} {fields : Entries Value} {entries : Entries Tree} {key : String}

/-! ## What is read back of an entry -/

theorem keeps_iff {v : Value} : (e.reader res).keeps v = true ↔ v.isEmptyContainer = false := by
  simp [Decoder.keeps, Encoder.decoder]

theorem isEmptyContainer_of_hasText {v : Value} (h : v.hasText = true) :
    v.isEmptyContainer = false := by
  cases v with
  | list items => cases h
  | object fields => cases h
  | _ => rfl

theorem Decoder.get?_readBack_field {d : Decoder} (hd : entries.Distinct) (hk : IsFieldName key)
    {t : Tree} (ht : (key, t) ∈ entries) :
    Entries.get? (d.readBack o entries) key =
      if d.keeps (d.decode t.reread ((declared? o key).map Field.schema)) then
        some (d.decode t.reread ((declared? o key).map Field.schema)) else none := by
  obtain ⟨ha, htext, hverbatim⟩ := isChild_iff.1 (isChild_of_isFieldName hk)
  have hvariant := ne_of_isReserved Marker.variant (by decide) hk.2
  rw [Decoder.get?_readBack hd, get?_rereadEntries, ha, if_neg Bool.false_ne_true, if_neg htext,
    if_neg hverbatim, (Entries.get?_eq_some_iff hd).2 ht, Option.map_some, Option.bind_some,
    Decoder.fieldValue?, if_neg (fun h => hvariant h.2), Decoder.fieldValue, ha,
    if_neg Bool.false_ne_true]

theorem get?_readBack_child (hd : entries.Distinct) (hk : IsFieldName key) {t : Tree}
    (ht : (key, t) ∈ entries) :
    Entries.get? ((e.reader res).readBack o entries) key =
      if ((e.reader res).decode t.reread ((declared? o key).map Field.schema)).isEmptyContainer
      then none else some ((e.reader res).decode t.reread ((declared? o key).map Field.schema)) := by
  rw [Decoder.get?_readBack_field hd hk ht]
  cases hw : ((e.reader res).decode t.reread ((declared? o key).map Field.schema)).isEmptyContainer with
  | true => rw [if_neg (by rw [keeps_iff, hw]; simp), if_pos rfl]
  | false => rw [if_pos (keeps_iff.2 hw), if_neg Bool.false_ne_true]

theorem get?_readBack_attribute (hd : entries.Distinct) (hk : Marker.isAttribute key = true)
    {text : String} (ht : (key, .text text) ∈ entries) :
    Entries.get? ((e.reader res).readBack o entries) key = some (.string text) := by
  have hvariant : key ≠ Marker.variant := by
    rintro rfl
    exact absurd hk (by decide)
  rw [Decoder.get?_readBack hd, get?_rereadEntries, if_pos hk, (Entries.get?_eq_some_iff hd).2 ht,
    Option.bind_some, Decoder.fieldValue?, if_neg (fun h => hvariant h.2), Decoder.fieldValue,
    if_pos hk]
  rfl

theorem get?_readBack_text (hd : entries.Distinct) (ho : ∀ t, o = some t → t.WellKeyed) :
    Entries.get? ((e.reader res).readBack o entries) Marker.text =
      if readText entries = "" then none
      else some ((e.reader res).scalar (readText entries) none) := by
  rw [Decoder.get?_readBack hd, get?_rereadEntries, if_neg (by decide), if_pos rfl]
  by_cases h : readText entries = ""
  · simp [h]
  · rw [if_neg (by simpa using h), if_neg h, Option.bind_some, Decoder.fieldValue?,
      Decoder.fieldValue_text ho, if_neg (fun h => absurd h.2 (by decide)),
      if_pos (keeps_iff.2 (isEmptyContainer_of_hasText (Decoder.hasText_scalar _ _ rfl)))]

section

variable (ho : ∀ t, o = some t → t.WellKeyed) (hd : fields.Distinct)
  (hl : e.Lays o path skipCase fields entries)

include ho hd hl in
/-- The character data that is read is the text of the field for it. -/
theorem readText_of_lays {v : Value} (hv : (Marker.text, v) ∈ ownFields skipCase fields)
    {text : String} (ht : e.wireText? v = some text) : readText entries = text := by
  obtain ⟨htext, hverbatim⟩ := hl.get?_data ho hd hv ht
  rw [readText, content_trimmedEntries]
  unfold entryText?
  rw [htext, hverbatim]
  split
  · simp [asText?]
  · next hp =>
    simp [asText?, trimText_of_unpadded (unpadded_of_isPadded (Bool.eq_false_of_not_eq_true hp))]

include ho hl in
theorem readText_eq_empty (hv : Marker.text ∉ (ownFields skipCase fields).keys) :
    readText entries = "" := by
  have hnot : ∀ marker, ¬ IsFieldName marker → Marker.isAttribute marker = false →
      marker ∉ entries.keys := by
    intro marker hname hattribute hm
    obtain ⟨t, ht⟩ := Entries.exists_of_mem_keys hm
    obtain ⟨v, -, hf, -⟩ := hl.exists_data ho hname hattribute ht
    exact hv (Entries.mem_keys_of_mem hf)
  rw [readText, content_trimmedEntries]
  unfold entryText?
  rw [Entries.get?_eq_none_iff.2 (hnot Marker.text (by decide) (by decide)),
    Entries.get?_eq_none_iff.2 (hnot Marker.verbatim (by decide) (by decide))]
  rfl

/-- Where a field that is read back comes from. -/
inductive ReadsBack (e : Encoder) (res : Resolutions) (o : Option ObjectType) (skipCase : Bool)
    (fields : Entries Value) (entries : Entries Tree) : String → Value → Prop
  | attr {key text : String} {v : Value} (hk : Marker.isAttribute key = true)
      (hv : (key, v) ∈ ownFields skipCase fields) (ht : e.wireText? v = some text)
      (plain : ¬ (key = Marker.kind ∧ (Kind.read? text).isSome)) :
      ReadsBack e res o skipCase fields entries key (.string text)
  | text {text : String} {v : Value} (hv : (Marker.text, v) ∈ ownFields skipCase fields)
      (ht : e.wireText? v = some text) (hne : text ≠ "") :
      ReadsBack e res o skipCase fields entries Marker.text ((e.reader res).scalar text none)
  | child {key : String} {t : Tree} (hk : IsFieldName key) (ht : (key, t) ∈ entries)
      (filled : ((e.reader res).decode t.reread
        ((declared? o key).map Field.schema)).isEmptyContainer = false) :
      ReadsBack e res o skipCase fields entries key
        ((e.reader res).decode t.reread ((declared? o key).map Field.schema))

include ho hd hl in
theorem readsBack_of_mem {w : Value} (hw : (key, w) ∈ (e.reader res).readBack o entries) :
    ReadsBack e res o skipCase fields entries key w := by
  have hdistinct := hl.distinct ho hd
  have hget := (Entries.get?_eq_some_iff (Decoder.distinct_readBack hdistinct)).2 hw
  by_cases htext : key = Marker.text
  · subst htext
    rw [get?_readBack_text hdistinct ho] at hget
    split at hget
    · cases hget
    · next hne =>
      have hmem : Marker.text ∈ (ownFields skipCase fields).keys := by
        by_contra hnot
        exact hne (readText_eq_empty ho hl hnot)
      obtain ⟨v, hv⟩ := Entries.exists_of_mem_keys hmem
      obtain ⟨a, -, hrel⟩ := hl.exists_entry hv
      obtain ⟨text, ht, -⟩ := hrel.exists_wireText
      have hread := readText_of_lays ho hd hl hv ht
      rw [hread] at hget hne
      exact Option.some.inj hget ▸ .text hv ht hne
  · have hmem : key ∈ (rereadEntries entries).keys := by
      rw [Decoder.get?_readBack hdistinct] at hget
      obtain ⟨t, ht, -⟩ := Option.bind_eq_some_iff.1 hget
      exact Entries.mem_keys_of_mem (Entries.mem_of_get?_eq_some ht)
    obtain ⟨t, ht⟩ : ∃ t, (key, t) ∈ entries := by
      obtain ⟨u, hu⟩ := Entries.exists_of_mem_keys hmem
      rcases cases_of_mem_rereadEntries hu with ⟨-, hu⟩ | ⟨-, t, ht, -⟩ | ⟨hkey, -⟩
      · exact ⟨u, hu⟩
      · exact ⟨t, ht⟩
      · exact absurd hkey htext
    by_cases hk : IsFieldName key
    · rw [get?_readBack_child hdistinct hk ht] at hget
      split at hget
      · cases hget
      · next hfilled => exact Option.some.inj hget ▸ .child hk ht (by simpa using hfilled)
    · cases hattribute : Marker.isAttribute key with
      | true =>
        obtain ⟨v, text, hv, hv', rfl, plain⟩ := hl.exists_attribute ho hattribute ht
        rw [get?_readBack_attribute hdistinct hattribute ht] at hget
        exact Option.some.inj hget ▸ .attr hattribute hv hv' plain
      | false =>
        -- Character data goes under its own key, so the marker of verbatim text is none.
        obtain ⟨_, _, -, -, -, hkey⟩ := hl.exists_data ho hk hattribute ht
        split at hkey
        · rw [hkey, Decoder.get?_readBack hdistinct, get?_rereadEntries, if_neg (by decide),
            if_neg (by decide), if_pos rfl] at hget
          cases hget
        · exact absurd hkey htext

end

/-! ## Settled fields -/

theorem declared?_of_mem_missingFields (ho : ∀ t, o = some t → t.WellKeyed) {present : List String}
    {f : String × Field} (hf : f ∈ missingFields o present) : declared? o f.1 = some f.2 := by
  obtain ⟨⟨t, rfl, hm⟩, -, -⟩ := mem_missingFields.1 hf
  exact (Entries.get?_eq_some_iff (ho t rfl).distinct).2 hm

/-- A field that is filled in with nothing: what is read back of it is empty. -/
def Idle (e : Encoder) (f : Field) : Prop :=
  ∃ t, (∀ path, e.fill f path = .ok t) ∧ t.casesUnpadded = true ∧
    ∀ res, ((e.reader res).decode t.reread (some f.schema)).isEmptyContainer = true

/-- A field that its entry gives back. -/
inductive FieldSettled (e : Encoder) (store : Store) (o : Option ObjectType) : String × Value → Prop
  | attr {key text : String} (hk : Marker.isAttribute key = true)
      (plain : ¬ (key = Marker.kind ∧ (Kind.read? text).isSome)) :
      FieldSettled e store o (key, .string text)
  | text {text : String} (hne : text ≠ "") :
      FieldSettled e store o (Marker.text, e.settle store text none)
  | child {key : String} {v : Value} (hk : IsFieldName key)
      (hv : Settled e store ((declared? o key).map Field.schema)
        ((declared? o key).any Field.verbatim) v)
      (filled : v.isEmptyContainer = false) : FieldSettled e store o (key, v)

/-- The fields of an object that comes back without further ones. -/
structure FieldsSettled (e : Encoder) (store : Store) (o : Option ObjectType) (skipCase : Bool)
    (fields : Entries Value) : Prop where
  distinct : fields.Distinct
  each : ∀ f ∈ ownFields skipCase fields, FieldSettled e store o f
  missing : ∀ f ∈ missingFields o fields.keys, Idle e f.2

/-- The texts that are read of entries are known. -/
def KnowsEntries (e : Encoder) (store : Store) (res : Resolutions) (entries : Entries Tree) : Prop :=
  ∀ key t, Entries.get? (rereadEntries entries) key = some t → key ≠ Marker.variant →
    Marker.isAttribute key = false → (e.reader res).Knows store t

/-- The entry of a settled field, at every path. -/
def Returns (e : Encoder) (store : Store) (o : Option ObjectType) (f : String × Value)
    (entry : String × Tree) : Prop :=
  (∀ path, EncodesEntry e o path f entry) ∧
    ((∃ text, entry.2 = .text text) ∨ ∀ res, (e.reader res).Knows store entry.2.reread →
      (f.2.same ((e.reader res).decode entry.2.reread ((declared? o f.1).map Field.schema)) = true ↔
        entry.2.casesUnpadded = true))

theorem attributeName?_of_isAttribute (hk : Marker.isAttribute key = true) :
    ∃ name, Marker.attributeName? key = some name := Option.isSome_iff_exists.1 hk

theorem FieldSettled.exists_entry {f : String × Value} (h : FieldSettled e store o f) :
    ∃ entry, Returns e store o f entry := by
  cases h with
  | @attr key text hk plain =>
    obtain ⟨name, hname⟩ := attributeName?_of_isAttribute hk
    exact ⟨(key, .text text), fun path => .attr hname rfl plain, .inl ⟨text, rfl⟩⟩
  | @text text hne =>
    exact ⟨_, fun path => .text (wireText?_settle text rfl), .inl ⟨text, rfl⟩⟩
  | @child key v hk hv filled =>
    obtain ⟨t, ht, hdecode⟩ := hv
    exact ⟨(key, t), fun path => .child hk (ht _), .inr hdecode⟩

theorem KnowsEntries.child (h : KnowsEntries e store res entries) (hd : entries.Distinct)
    (hk : IsFieldName key) {t : Tree} (ht : (key, t) ∈ entries) :
    (e.reader res).Knows store t.reread := by
  obtain ⟨ha, htext, hverbatim⟩ := isChild_iff.1 (isChild_of_isFieldName hk)
  refine h key _ ?_ (ne_of_isReserved Marker.variant (by decide) hk.2) ha
  rw [get?_rereadEntries, ha, if_neg Bool.false_ne_true, if_neg htext, if_neg hverbatim,
    (Entries.get?_eq_some_iff hd).2 ht, Option.map_some]

theorem KnowsEntries.text (h : KnowsEntries e store res entries) (hne : readText entries ≠ "") :
    (e.reader res).Knows store (.text (readText entries)) := by
  refine h Marker.text _ ?_ (by decide) (by decide)
  rw [get?_rereadEntries, if_neg (by decide), if_pos rfl, if_neg (by simpa using hne)]

section

variable (ho : ∀ t, o = some t → t.WellKeyed) {own filled : Entries Tree}
  (h : FieldsSettled e store o skipCase fields)
  (hown : List.Forall₂ (Returns e store o) (ownFields skipCase fields) own)
  (hfilled : List.Forall₂ (fun (f : String × Field) a => (∀ path, Fills e path f a) ∧
    a.2.casesUnpadded = true ∧
    ∀ res, ((e.reader res).decode a.2.reread (some f.2.schema)).isEmptyContainer = true)
    (missingFields o fields.keys) filled)

include hown hfilled in
theorem FieldsSettled.lays (path : Path) : e.Lays o path skipCase fields (own ++ filled) :=
  ⟨own, filled, hown.imp fun _ _ hf => hf.1 path, hfilled.imp fun _ _ hf => hf.1 path, rfl⟩

include ho h hown hfilled in
/-- Nothing is read back beside the fields that are there. -/
theorem FieldsSettled.keys_readBack (hkey : key ∈ ((e.reader res).readBack o (own ++ filled)).keys) :
    key ∈ (ownFields skipCase fields).keys := by
  have hl := FieldsSettled.lays hown hfilled .root
  obtain ⟨w, hw⟩ := Entries.exists_of_mem_keys hkey
  cases readsBack_of_mem ho h.distinct hl hw with
  | attr _ hv _ _ => exact Entries.mem_keys_of_mem hv
  | text hv _ _ => exact Entries.mem_keys_of_mem hv
  | @child _ t hk ht hne =>
    rcases List.mem_append.1 ht with ht | ht
    · obtain ⟨f, hf, hrel, -⟩ := mem_of_forall₂_right hown ht
      rcases (hrel .root).key with he | ⟨-, he⟩
      · have he : key = f.1 := he
        exact he ▸ Entries.mem_keys_of_mem hf
      · have he : key = Marker.verbatim := he
        exact absurd (he ▸ hk) (by decide)
    · obtain ⟨f, hf, hfills, -, hempty⟩ := mem_of_forall₂_right hfilled ht
      have he : key = f.1 := (hfills .root).1
      rw [he, declared?_of_mem_missingFields ho hf, Option.map_some, hempty res] at hne
      cases hne

include ho h hown hfilled in
/-- A field that is there is read back under its key. -/
theorem FieldsSettled.get?_readBack {f : String × Value} (hf : f ∈ ownFields skipCase fields)
    {entry : String × Tree} (hentry : entry ∈ own) (hrel : Returns e store o f entry)
    (hknows : KnowsEntries e store res (own ++ filled)) :
    (∃ w, Entries.get? ((e.reader res).readBack o (own ++ filled)) f.1 = some w ∧
      f.2.same w = true) ↔ entry.2.casesUnpadded = true := by
  have hl := FieldsSettled.lays hown hfilled .root
  have hdistinct := hl.distinct ho h.distinct
  have hmem := List.mem_append_left filled hentry
  cases h.each f hf with
  | @attr key text hk plain =>
    obtain rfl : entry = (key, .text text) := by
      obtain ⟨name, hname⟩ := attributeName?_of_isAttribute hk
      exact (hrel.1 .root).unique (.attr hname rfl plain)
    rw [get?_readBack_attribute hdistinct hk hmem]
    exact ⟨fun _ => by rw [Tree.casesUnpadded], fun _ => ⟨_, rfl, same_self_of_hasText rfl⟩⟩
  | @text text hne =>
    have htextual : (e.settle store text none).hasText = true := hasText_settle text rfl
    have hwire : e.wireText? (e.settle store text none) = some text := wireText?_settle text rfl
    have hread := readText_of_lays ho h.distinct hl hf hwire
    obtain rfl := (hrel.1 .root).unique (.text hwire)
    have htext := hknows.text (by rw [hread]; exact hne)
    rw [hread] at htext
    rw [get?_readBack_text hdistinct ho, hread, if_neg hne, scalar_eq_settle htext]
    exact ⟨fun _ => by rw [Tree.casesUnpadded],
      fun _ => ⟨_, rfl, same_self_of_hasText htextual⟩⟩
  | @child key v hk hv hne =>
    obtain ⟨t, ht, hdecode⟩ := hv
    obtain rfl : entry = (key, t) := (hrel.1 .root).unique (.child hk (ht _))
    have hiff := hdecode res (hknows.child hdistinct hk hmem)
    rw [get?_readBack_child hdistinct hk hmem, ← hiff]
    constructor
    · rintro ⟨w, hw, hsame⟩
      split at hw
      · cases hw
      · exact Option.some.inj hw ▸ hsame
    · intro hsame
      rw [Value.isEmptyContainer_of_same hsame] at hne
      exact ⟨_, by rw [if_neg (by simp [hne])], hsame⟩

include ho h hown hfilled in
theorem FieldsSettled.same_readBack (hknows : KnowsEntries e store res (own ++ filled)) :
    (Value.object (ownFields skipCase fields)).same
        (.object ((e.reader res).readBack o (own ++ filled))) = true ↔
      ∀ key t, (key, t) ∈ own ++ filled → t.casesUnpadded = true := by
  have hl := FieldsSettled.lays hown hfilled .root
  have hdistinct := hl.distinct ho h.distinct
  have hdistinct' : (ownFields skipCase fields).Distinct := h.distinct.filter _
  rw [Value.same_object_iff hdistinct' (Decoder.distinct_readBack hdistinct)]
  constructor
  · rintro ⟨heach, -⟩ key t ht
    rcases List.mem_append.1 ht with ht | ht
    · obtain ⟨f, hf, hrel⟩ := mem_of_forall₂_right hown ht
      exact (h.get?_readBack ho hown hfilled hf ht hrel hknows).1 (heach f.1 f.2 hf)
    · obtain ⟨f, -, -, hcases, -⟩ := mem_of_forall₂_right hfilled ht
      exact hcases
  · intro hcases
    refine ⟨fun key v hv => ?_, fun key hkey => h.keys_readBack ho hown hfilled hkey⟩
    obtain ⟨entry, hentry, hrel⟩ := mem_of_forall₂_left hown hv
    exact (h.get?_readBack ho hown hfilled hv hentry hrel hknows).2
      (hcases entry.1 entry.2 (List.mem_append_left _ hentry))

end

/-- Settled fields have entries that are the same at every path and give them back. -/
theorem FieldsSettled.exists_lays (ho : ∀ t, o = some t → t.WellKeyed)
    (h : FieldsSettled e store o skipCase fields) :
    ∃ entries, (∀ path, e.Lays o path skipCase fields entries) ∧
      ∀ res, KnowsEntries e store res entries →
        (∀ key ∈ ((e.reader res).readBack o entries).keys,
          key ∈ (ownFields skipCase fields).keys) ∧
        ((Value.object (ownFields skipCase fields)).same
            (.object ((e.reader res).readBack o entries)) = true ↔
          ∀ key t, (key, t) ∈ entries → t.casesUnpadded = true) := by
  obtain ⟨own, hown⟩ := exists_forall₂ fun f hf => (h.each f hf).exists_entry
  have hmissing : ∀ f ∈ missingFields o fields.keys, ∃ a : String × Tree,
      (∀ path, Fills e path f a) ∧ a.2.casesUnpadded = true ∧
        ∀ res, ((e.reader res).decode a.2.reread (some f.2.schema)).isEmptyContainer = true := by
    intro f hf
    obtain ⟨t, ht, hcases, hempty⟩ := h.missing f hf
    exact ⟨(f.1, t), fun path => ⟨rfl, ht _⟩, hcases, hempty⟩
  obtain ⟨filled, hfilled⟩ := exists_forall₂ hmissing
  exact ⟨own ++ filled, FieldsSettled.lays hown hfilled, fun res hknows =>
    ⟨fun _ hkey => h.keys_readBack ho hown hfilled hkey,
      h.same_readBack ho hown hfilled hknows⟩⟩

end TaggedMarkup
