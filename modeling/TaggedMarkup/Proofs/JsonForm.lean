import TaggedMarkup.Proofs.Inside
import TaggedMarkup.Proofs.Path
import TaggedMarkup.Proofs.Sameness
import TaggedMarkup.Value.Json
/-!
# What comes back of a JSON form

In JSON a reference is an object with one member, and an object that has just this member with the
text of a path becomes a reference when it is read. Everything else comes back as it was, so the form
of a value is faithful if and only if no object in the value spells a reference.
-/
namespace TaggedMarkup.Value

/-- The reference that the fields of an object spell. -/
def spelledReference? : List (String × Value) → Option Reference
  | [(name, .string target)] =>
    if name = referenceName then (Path.read target).toOption.map Reference.mk else none
  | _ => none

mutual

/-- The value with references in place of the objects that spell them. -/
def referring : Value → Value
  | list items => list (referringItems items)
  | object fields =>
    match spelledReference? fields with
    | some r => reference r
    | none => object (referringFields fields)
  | v => v

def referringItems : List Value → List Value
  | [] => []
  | v :: rest => v.referring :: referringItems rest

def referringFields : List (String × Value) → List (String × Value)
  | [] => []
  | (key, v) :: rest => (key, v.referring) :: referringFields rest

end

/-- No object inside has the text of a path as the only thing it holds, under the name of a
reference. -/
def SpellsNoReference (v : Value) : Prop :=
  ∀ text p, Path.read text = .ok p → ¬ (object [("$ref", string text)]).Inside v

variable {v w : Value} {items : List Value} {fields : Entries Value} {key : String} {r : Reference}

theorem referringItems_eq (items : List Value) : referringItems items = items.map referring := by
  induction items with
  | nil => rfl
  | cons v rest ih => rw [referringItems, ih, List.map_cons]

theorem referringFields_eq (fields : Entries Value) :
    referringFields fields = fields.map fun f => (f.1, f.2.referring) := by
  induction fields with
  | nil => rfl
  | cons f rest ih => rw [referringFields, ih, List.map_cons]

theorem keys_referringFields (fields : Entries Value) :
    Entries.keys (referringFields fields) = fields.keys := by
  rw [referringFields_eq, Entries.keys, Entries.keys, List.map_map]
  rfl

theorem distinct_referringFields (h : fields.Distinct) :
    Entries.Distinct (referringFields fields) := by
  rwa [Entries.Distinct, keys_referringFields]

theorem spelledReference?_eq_some_iff : spelledReference? fields = some r ↔
    ∃ text, fields = [("$ref", string text)] ∧ Path.read text = .ok r.target := by
  constructor
  · intro h
    unfold spelledReference? at h
    split at h
    · next name text =>
      split at h
      · next hname =>
        obtain ⟨p, hp, rfl⟩ := Option.map_eq_some_iff.1 h
        cases hread : Path.read text with
        | error fault => simp [hread, Except.toOption] at hp
        | ok q =>
          obtain rfl : q = p := by simpa [hread, Except.toOption] using hp
          exact ⟨text, by rw [hname]; rfl, hread⟩
      · cases h
    · cases h
  · rintro ⟨text, rfl, hread⟩
    simp [spelledReference?, referenceName, hread, Except.toOption]

/-- The members of an object spell a reference if its fields do. -/
theorem readReference?_fieldsToJson (fields : Entries Value) :
    readReference? (fieldsToJson fields) = spelledReference? fields := by
  match fields with
  | [] => rfl
  | [(name, v)] => cases v <;> rfl
  | _ :: _ :: _ => simp [fieldsToJson, readReference?, spelledReference?]

theorem itemsOfJson?_itemsToJson (h : ∀ v ∈ items, ofJson? true v.toJson = some v.referring) :
    itemsOfJson? true (itemsToJson items) = some (referringItems items) := by
  induction items with
  | nil => rfl
  | cons v rest ih =>
    rw [itemsToJson, itemsOfJson?, h v List.mem_cons_self,
      ih fun w hw => h w (List.mem_cons_of_mem _ hw)]
    rfl

theorem fieldsOfJson?_fieldsToJson
    (h : ∀ key v, (key, v) ∈ fields → ofJson? true v.toJson = some v.referring) :
    fieldsOfJson? true (fieldsToJson fields) = some (referringFields fields) := by
  induction fields with
  | nil => rfl
  | cons f rest ih =>
    obtain ⟨hv, hrest⟩ := Entries.forall_mem_cons.1 h
    rw [fieldsToJson, fieldsOfJson?, hv, ih hrest]
    rfl

theorem ofJson?_reference (h : ∀ s ∈ r.target.segments, Path.IsSegment s) :
    ofJson? true (reference r).toJson = some (reference r) := by
  have hspelled : readReference? [(referenceName, .string r.target.text)] = some r := by
    simp [readReference?, Path.read_text h, Except.toOption]
  simp [toJson, ofJson?, fieldsOfJson?, hspelled]

/-- What is read of the form of a value has a reference wherever the value spells one. -/
theorem ofJson?_toJson (hk : v.Keyed)
    (hr : ∀ r, (reference r).Inside v → ∀ s ∈ r.target.segments, Path.IsSegment s) :
    ofJson? true v.toJson = some v.referring := by
  induction hk with
  | null => rfl
  | bool => rfl
  | number => rfl
  | string => rfl
  | reference r => exact ofJson?_reference (hr r .self)
  | @list items each ih =>
    have hitems := itemsOfJson?_itemsToJson fun v hv => ih v hv fun r h => hr r (.item hv h)
    rw [toJson, ofJson?, hitems]
    rfl
  | @object fields distinct each ih =>
    have hfields := fieldsOfJson?_fieldsToJson fun key v hv => ih key v hv fun r h =>
      hr r (.field hv h)
    have hpairs := Entries.ofPairs_eq (distinct_referringFields distinct)
    rw [toJson, ofJson?, hfields, referring]
    simp only [if_true, readReference?_fieldsToJson]
    cases spelledReference? fields with
    | none => exact congrArg (fun fields => some (object fields)) hpairs
    | some r => rfl

/-! ## What is changed -/

theorem referring_eq_self (hk : v.Keyed) (h : v.SpellsNoReference) : v.referring = v := by
  induction hk with
  | @list items each ih =>
    have hitems : items.map referring = items := (List.map_congr_left fun v hv =>
      ih v hv fun text p hp hinside => h text p hp (.item hv hinside)).trans (List.map_id items)
    rw [referring, referringItems_eq, hitems]
  | @object fields distinct each ih =>
    have hspelled : spelledReference? fields = none := by
      by_contra hne
      obtain ⟨r, hr⟩ := Option.ne_none_iff_exists'.1 hne
      obtain ⟨text, rfl, hread⟩ := spelledReference?_eq_some_iff.1 hr
      exact h text r.target hread .self
    have hfields : fields.map (fun f => (f.1, f.2.referring)) = fields := by
      refine (List.map_congr_left fun f hf => ?_).trans (List.map_id fields)
      obtain ⟨key, v⟩ := f
      rw [ih key v hf fun text p hp hinside => h text p hp (.field hf hinside)]
      rfl
    rw [referring, hspelled, referringFields_eq, hfields]
  | _ => rfl

theorem Keyed.same_self (hk : v.Keyed) : v.same v = true := by
  induction hk with
  | null => rfl
  | reference r => exact same_reference r
  | list each ih =>
    rw [same, sameItems_iff, List.forall₂_same]
    exact ih
  | object distinct each ih =>
    refine (same_object_iff distinct distinct).2 ⟨fun key v hv => ⟨v, ?_, ih key v hv⟩,
      fun key hkey => hkey⟩
    exact (Entries.get?_eq_some_iff distinct).2 hv
  | _ => exact same_self_of_isScalar rfl

theorem spellsNoReference_of_same (hk : v.Keyed) (h : v.referring.same v = true) :
    v.SpellsNoReference := by
  intro text p hread hinside
  induction hinside with
  | self =>
    have hspelled : spelledReference? [("$ref", string text)] = some ⟨p⟩ :=
      spelledReference?_eq_some_iff.2 ⟨text, rfl, hread⟩
    simp [referring, hspelled, same] at h
  | @item items v hm _ ih =>
    rw [referring, referringItems_eq, same, sameItems_iff, List.forall₂_map_left_iff,
      List.forall₂_same] at h
    exact ih (hk.of_mem_items hm) (h v hm)
  | @field fields key v hm _ ih =>
    rw [referring] at h
    split at h
    · simp [same] at h
    · rw [same_object_iff (distinct_referringFields hk.distinct) hk.distinct] at h
      have hback : (key, v.referring) ∈ referringFields fields := by
        rw [referringFields_eq]
        exact List.mem_map_of_mem (f := fun f => (f.1, f.2.referring)) hm
      obtain ⟨w, hw, hsame⟩ := h.1 key _ hback
      obtain rfl : v = w := Option.some.inj
        (((Entries.get?_eq_some_iff hk.distinct).2 hm).symm.trans hw)
      exact ih (hk.of_mem_fields hm) hsame

/-- A value always comes back of its JSON form as some value, and as itself if and only if no object
in it spells a reference; nor is what comes back of any other value the same up to the order of
fields. -/
theorem json_faithful_iff (hk : v.Keyed)
    (hr : ∀ r, (reference r).Inside v → ∀ s ∈ r.target.segments, Path.IsSegment s) :
    (ofJson? true v.toJson = some v ↔ v.SpellsNoReference) ∧
    ∃ w, ofJson? true v.toJson = some w ∧ (w.same v = true ↔ v.SpellsNoReference) := by
  have hback := ofJson?_toJson hk hr
  refine ⟨⟨fun h => ?_, fun h => ?_⟩, _, hback, spellsNoReference_of_same hk, fun h => ?_⟩
  · have heq : v.referring = v := Option.some.inj (hback.symm.trans h)
    exact spellsNoReference_of_same hk (heq.symm ▸ hk.same_self)
  · rw [hback, referring_eq_self hk h]
  · rw [referring_eq_self hk h]
    exact hk.same_self

/-- A reference beside objects that come near to one: one names no path, and one has a field too
many. -/
def lookalikes : Value :=
  object [("a", reference ⟨⟨["x", "y"]⟩⟩), ("b", object [("$ref", string "x y")]),
    ("c", object [("$ref", string "x"), ("d", null)])]

/-- The empty text names the root, so an object that holds it alone does not come back. -/
def spelling : Value := object [("e", object [("$ref", string "")])]

theorem json_faithful_iff_lookalikes :
    ofJson? true lookalikes.toJson = some lookalikes ∧ lookalikes.SpellsNoReference ∧
      ofJson? true spelling.toJson ≠ some spelling ∧ ¬ spelling.SpellsNoReference := by
  have hreferences : ∀ r, (reference r).Inside lookalikes →
      ∀ s ∈ r.target.segments, Path.IsSegment s := by
    intro r h
    obtain ⟨key, v, hm, h⟩ := h.reference_in_object
    simp only [List.mem_cons, Prod.mk.injEq, List.not_mem_nil, or_false] at hm
    rcases hm with ⟨-, rfl⟩ | ⟨-, rfl⟩ | ⟨-, rfl⟩
    · cases h
      simp only [List.mem_cons, List.not_mem_nil, or_false, forall_eq_or_imp, forall_eq]
      exact ⟨⟨by decide, by decide +kernel⟩, by decide, by decide +kernel⟩
    all_goals
      obtain ⟨key, v, hm, h⟩ := h.reference_in_object
      simp only [List.mem_cons, Prod.mk.injEq, List.not_mem_nil, or_false] at hm
    · obtain ⟨-, rfl⟩ := hm
      cases h
    · rcases hm with ⟨-, rfl⟩ | ⟨-, rfl⟩ <;> cases h
  have hnone : ∀ r, ¬ (reference r).Inside spelling := by
    intro r h
    obtain ⟨key, v, hm, h⟩ := h.reference_in_object
    obtain ⟨-, rfl⟩ := Prod.mk.inj (List.mem_singleton.1 hm)
    obtain ⟨key, v, hm, h⟩ := h.reference_in_object
    obtain ⟨-, rfl⟩ := Prod.mk.inj (List.mem_singleton.1 hm)
    cases h
  have hback : ofJson? true lookalikes.toJson = some lookalikes := rfl
  have hspelling := (json_faithful_iff (v := spelling) (keyed_of_isKeyed _ (by decide))
    fun r h => absurd h (hnone r)).1
  have hlookalikes := (json_faithful_iff (v := lookalikes) (keyed_of_isKeyed _ (by decide))
    hreferences).1
  have hspelt : ¬ spelling.SpellsNoReference := fun h =>
    h "" .root rfl (.field List.mem_cons_self .self)
  exact ⟨hback, hlookalikes.1 hback, fun h => hspelt (hspelling.1 h), hspelt⟩

end TaggedMarkup.Value
