import Mathlib.Data.List.Forall2
import TaggedMarkup.Proofs.Keyed
/-!
# What an encoding is made of

An encoding that succeeds is taken apart here, one step at a time: `encodeFields_eq_ok_iff` relates
the fields of an object to entries, `withMissing_eq_ok_iff` adds those filled in, and `ObjectShape`
lists the forms of the whole object. Each is an equivalence, so that an encoding can be put together
from its parts as well.
-/
namespace TaggedMarkup

theorem bind_eq_ok_iff {ε α β : Type} {x : Except ε α} {f : α → Except ε β} {b : β} :
    (x >>= f) = .ok b ↔ ∃ a, x = .ok a ∧ f a = .ok b := by
  cases x <;> simp [bind, Except.bind]

theorem map_eq_ok_iff {ε α β : Type} {x : Except ε α} {f : α → β} {b : β} :
    x.map f = .ok b ↔ ∃ a, x = .ok a ∧ f a = b := by
  cases x <;> simp [Except.map]

theorem pure_eq_ok_iff {ε α : Type} {a b : α} : (pure a : Except ε α) = .ok b ↔ a = b := by
  simp [pure, Except.pure]

theorem isFieldName_iff {key : String} : IsFieldName key ↔
    Marker.attributeName? key = none ∧ key ≠ Marker.text ∧ Encoder.isReserved key = false ∧
      isElementName key = true := by
  constructor
  · rintro ⟨hname, hreserved⟩
    refine ⟨?_, ?_, hreserved, hname⟩
    · unfold Marker.attributeName?
      unfold isElementName at hname
      split
      · next rest hk =>
        rw [hk] at hname
        simp at hname
      · rfl
    · rintro rfl
      simp [isElementName, Marker.text] at hname
  · rintro ⟨-, -, hreserved, hname⟩
    exact ⟨hname, hreserved⟩

namespace Encoder

variable {e : Encoder} {o : Option ObjectType} {path : Path} {fields : Entries Value}

/-- The declaration of a field, if a type declares it. -/
def declared? (o : Option ObjectType) (key : String) : Option Field := o.bind fun o => o.field? key

/-- How a field becomes an entry. -/
inductive EncodesEntry (e : Encoder) (o : Option ObjectType) (path : Path) :
    String × Value → String × Tree → Prop
  | attr {key name text : String} {v : Value} (hk : Marker.attributeName? key = some name)
      (ht : e.wireText? v = some text)
      (plain : ¬ (key = Marker.kind ∧ (Kind.read? text).isSome)) :
      EncodesEntry e o path (key, v) (key, .text text)
  | text {text : String} {v : Value} (ht : e.wireText? v = some text) :
      EncodesEntry e o path (Marker.text, v)
        (if Text.isPadded text then Marker.verbatim else Marker.text, .text text)
  | child {key : String} {v : Value} {t : Tree} (hk : IsFieldName key)
      (ht : e.encode v ((declared? o key).map Field.schema) ((declared? o key).any Field.verbatim)
        (path.child key) = .ok t) :
      EncodesEntry e o path (key, v) (key, t)

theorem attributeEntry_eq_ok_iff {key name : String} {v : Value} {entry : String × Tree} :
    e.attributeEntry key name v path = .ok entry ↔
      ∃ text, e.wireText? v = some text ∧ ¬ (key = Marker.kind ∧ (Kind.read? text).isSome) ∧
        entry = (key, .text text) := by
  unfold attributeEntry mismatch
  cases e.wireText? v with
  | none => simp
  | some text =>
    by_cases hk : key = Marker.kind ∧ (Kind.read? text).isSome = true
    · simp only [if_pos hk]
      constructor
      · intro h
        cases h
      · rintro ⟨_, ht, hplain, -⟩
        exact absurd (Option.some.inj ht ▸ hk) hplain
    · simp only [hk, if_false, Except.ok.injEq, Option.some.injEq, exists_eq_left', not_false_iff,
        true_and]
      exact eq_comm

theorem textEntry_eq_ok_iff {v : Value} {entry : String × Tree} :
    e.textEntry v path = .ok entry ↔
      ∃ text, e.wireText? v = some text ∧
        entry = (if Text.isPadded text then Marker.verbatim else Marker.text, .text text) := by
  unfold textEntry mismatch
  cases e.wireText? v with
  | none => simp
  | some text =>
    simp only [Except.ok.injEq, Option.some.injEq, exists_eq_left']
    exact eq_comm

/-- The entry of one field, as the encoder chooses among its forms. -/
def encodeEntry (e : Encoder) (o : Option ObjectType) (path : Path) (key : String) (v : Value) :
    Except EncodeError (String × Tree) :=
  match Marker.attributeName? key with
  | some name => e.attributeEntry key name v path
  | none =>
    if key = Marker.text then e.textEntry v path
    else if isReserved key then mismatch path (.reserved key)
    else if !isElementName key then mismatch path (.badName key)
    else (e.encode v ((declared? o key).map Field.schema) ((declared? o key).any Field.verbatim)
      (path.child key)).map (key, ·)

theorem encodeEntry_eq_ok_iff {key : String} {v : Value} {entry : String × Tree} :
    e.encodeEntry o path key v = .ok entry ↔ EncodesEntry e o path (key, v) entry := by
  constructor
  · intro h
    unfold encodeEntry at h
    split at h
    · next name hk =>
      obtain ⟨text, ht, plain, rfl⟩ := attributeEntry_eq_ok_iff.1 h
      exact .attr hk ht plain
    · next hk =>
      split_ifs at h with htext hreserved hname
      · obtain ⟨text, ht, rfl⟩ := textEntry_eq_ok_iff.1 h
        subst htext
        exact .text ht
      · cases h
      · cases h
      · obtain ⟨t, ht, rfl⟩ := map_eq_ok_iff.1 h
        exact .child ⟨by simpa using hname, by simpa using hreserved⟩ ht
  · intro h
    unfold encodeEntry
    cases h with
    | attr hk ht plain =>
      rw [hk]
      exact attributeEntry_eq_ok_iff.2 ⟨_, ht, plain, rfl⟩
    | text ht =>
      have hk : Marker.attributeName? Marker.text = none := by decide
      rw [hk]
      simp only [if_true]
      exact textEntry_eq_ok_iff.2 ⟨_, ht, rfl⟩
    | child hk ht =>
      obtain ⟨hattribute, htext, hreserved, hname⟩ := isFieldName_iff.1 hk
      rw [hattribute]
      simp only [htext, hreserved, hname, if_false, Bool.false_eq_true, Bool.not_true]
      exact map_eq_ok_iff.2 ⟨_, ht, rfl⟩

theorem EncodesEntry.unique {f : String × Value} {a b : String × Tree}
    (ha : EncodesEntry e o path f a) (hb : EncodesEntry e o path f b) : a = b := by
  have hf := encodeEntry_eq_ok_iff.2 ha
  rw [encodeEntry_eq_ok_iff.2 hb] at hf
  exact (Except.ok.inj hf).symm

/-- The fields that become entries: all but one that keeps an untyped case. -/
def ownFields (skipCase : Bool) (fields : Entries Value) : Entries Value :=
  fields.filter fun f => !(skipCase && f.1 == Marker.untypedCase)

theorem encodeFields_cons (skipCase : Bool) (key : String) (v : Value) (rest : Entries Value) :
    e.encodeFields skipCase ((key, v) :: rest) o path =
      if skipCase ∧ key = Marker.untypedCase then e.encodeFields skipCase rest o path
      else e.encodeEntry o path key v >>= fun entry =>
        e.encodeFields skipCase rest o path >>= fun more => pure (entry :: more) := by
  rw [encodeFields, encodeEntry]
  split
  · rfl
  · cases Marker.attributeName? key with
    | some name => rfl
    | none => split_ifs <;> rfl

theorem encodeFields_eq_ok_iff {skipCase : Bool} {entries : Entries Tree} :
    e.encodeFields skipCase fields o path = .ok entries ↔
      List.Forall₂ (EncodesEntry e o path) (ownFields skipCase fields) entries := by
  induction fields generalizing entries with
  | nil => simp [encodeFields, ownFields, eq_comm]
  | cons f rest ih =>
    obtain ⟨key, v⟩ := f
    rw [encodeFields_cons]
    by_cases hskip : skipCase = true ∧ key = Marker.untypedCase
    · have hown : ownFields skipCase ((key, v) :: rest) = ownFields skipCase rest := by
        simp [ownFields, hskip]
      rw [if_pos hskip, ih, hown]
    · have hkeep : (!(skipCase && key == Marker.untypedCase)) = true := by
        by_contra hc
        exact hskip (by simpa using hc)
      have hown : ownFields skipCase ((key, v) :: rest) = (key, v) :: ownFields skipCase rest :=
        List.filter_cons_of_pos hkeep
      rw [if_neg hskip, hown]
      simp only [bind_eq_ok_iff, encodeEntry_eq_ok_iff, ih, pure_eq_ok_iff,
        List.forall₂_cons_left_iff]
      constructor
      · rintro ⟨entry, he, more, hm, rfl⟩
        exact ⟨entry, more, he, hm, rfl⟩
      · rintro ⟨entry, more, he, hm, rfl⟩
        exact ⟨entry, he, more, hm, rfl⟩

/-! ## Fields filled in -/

/-- The fields that a type declares beyond those present, without optional ones. -/
def missingFields (o : Option ObjectType) (present : List String) : Entries Field :=
  (o.elim [] ObjectType.fields).filter fun f => !decide (f.1 ∈ present ∨ f.2.optional = true)

/-- How a missing field becomes an entry. -/
def Fills (e : Encoder) (path : Path) (f : String × Field) (entry : String × Tree) : Prop :=
  entry.1 = f.1 ∧ e.fill f.2 (path.child f.1) = .ok entry.2

theorem missingEntries_eq_ok_iff {present : List String} {declared : Entries Field}
    {entries : Entries Tree} :
    e.missingEntries present path declared = .ok entries ↔
      List.Forall₂ (Fills e path)
        (declared.filter fun f => !decide (f.1 ∈ present ∨ f.2.optional = true)) entries := by
  induction declared generalizing entries with
  | nil =>
    simp only [missingEntries, List.filter_nil, List.forall₂_nil_left_iff, Except.ok.injEq]
    exact eq_comm
  | cons f rest ih =>
    obtain ⟨name, f⟩ := f
    rw [missingEntries]
    by_cases hskip : name ∈ present ∨ f.optional = true
    · rw [if_pos hskip, ih, List.filter_cons_of_neg (by simp [hskip])]
    · rw [if_neg hskip, List.filter_cons_of_pos (by simp [hskip])]
      simp only [bind_eq_ok_iff, ih, pure_eq_ok_iff, List.forall₂_cons_left_iff]
      constructor
      · rintro ⟨t, ht, more, hm, rfl⟩
        exact ⟨(name, t), more, ⟨rfl, ht⟩, hm, rfl⟩
      · rintro ⟨⟨key, t⟩, more, ⟨hkey, ht⟩, hm, rfl⟩
        cases hkey
        exact ⟨t, ht, more, hm, rfl⟩

theorem withMissing_eq_ok_iff {own entries : Entries Tree} :
    e.withMissing own fields o path = .ok entries ↔
      ∃ filled, List.Forall₂ (Fills e path) (missingFields o fields.keys) filled ∧
        entries = Entries.extend own filled := by
  unfold withMissing missingFields
  cases o with
  | none =>
    simp only [pure_eq_ok_iff, Option.elim_none, List.filter_nil, List.forall₂_nil_left_iff,
      exists_eq_left, Entries.extend, List.foldl_nil]
    exact eq_comm
  | some o =>
    simp only [bind_eq_ok_iff, missingEntries_eq_ok_iff, pure_eq_ok_iff, Option.elim_some]
    constructor
    · rintro ⟨filled, hf, rfl⟩
      exact ⟨filled, hf, rfl⟩
    · rintro ⟨filled, hf, rfl⟩
      exact ⟨filled, hf, rfl⟩

/-! ## Keys of entries -/

theorem isReserved_of_attributeName? {key name : String}
    (hk : Marker.attributeName? key = some name) : isReserved key = false := by
  have hne : ∀ marker : String, Marker.attributeName? marker = none → key ≠ marker := by
    rintro marker hm rfl
    rw [hk] at hm
    cases hm
  simp [isReserved, hne Marker.verbatim (by decide), hne Marker.item (by decide),
    hne Marker.variant (by decide)]

theorem EncodesEntry.isReserved {f : String × Value} {entry : String × Tree}
    (h : EncodesEntry e o path f entry) : isReserved f.1 = false := by
  cases h with
  | attr hk _ _ => exact isReserved_of_attributeName? hk
  | text _ => exact (by decide : Encoder.isReserved Marker.text = false)
  | child hk _ => exact hk.2

theorem EncodesEntry.key {f : String × Value} {entry : String × Tree}
    (h : EncodesEntry e o path f entry) :
    entry.1 = f.1 ∨ f.1 = Marker.text ∧ entry.1 = Marker.verbatim := by
  cases h with
  | attr _ _ _ => exact .inl rfl
  | text _ =>
    dsimp only
    split
    · exact .inr ⟨rfl, rfl⟩
    · exact .inl rfl
  | child _ _ => exact .inl rfl

theorem ne_of_isReserved {key : String} (marker : String) (hm : isReserved marker = true)
    (hk : isReserved key = false) : key ≠ marker := by
  rintro rfl
  rw [hm] at hk
  cases hk

/-- Different fields become different entries. -/
theorem EncodesEntry.key_injective {f g : String × Value} {a b : String × Tree}
    (hf : EncodesEntry e o path f a) (hg : EncodesEntry e o path g b) (h : a.1 = b.1) :
    f.1 = g.1 := by
  have hf' := ne_of_isReserved Marker.verbatim (by decide) hf.isReserved
  have hg' := ne_of_isReserved Marker.verbatim (by decide) hg.isReserved
  rcases hf.key with ha | ⟨ha, ha'⟩ <;> rcases hg.key with hb | ⟨hb, hb'⟩
  · rw [← ha, h, hb]
  · exact absurd (by rw [← ha, h, hb']) hf'
  · exact absurd (by rw [← hb, ← h, ha']) hg'
  · rw [ha, hb]

theorem not_isFieldName_of_isAttribute {key : String} (ha : Marker.isAttribute key = true) :
    ¬ IsFieldName key := by
  intro hk
  rw [Marker.isAttribute, (isFieldName_iff.1 hk).1] at ha
  cases ha

/-- The entry of a child is that of the field with its name. -/
theorem EncodesEntry.exists_child {f : String × Value} {key : String} {t : Tree}
    (h : EncodesEntry e o path f (key, t)) (hk : IsFieldName key) :
    ∃ v, f = (key, v) ∧ e.encode v ((declared? o key).map Field.schema)
      ((declared? o key).any Field.verbatim) (path.child key) = .ok t := by
  generalize ha : (key, t) = a at h
  cases h with
  | attr hname _ _ =>
    obtain ⟨rfl, -⟩ := Prod.mk.inj ha
    exact absurd hk (not_isFieldName_of_isAttribute (by rw [Marker.isAttribute, hname]; rfl))
  | text _ =>
    obtain ⟨hkey, -⟩ := Prod.mk.inj ha
    split at hkey <;> subst hkey <;> exact absurd hk (by decide)
  | child _ ht =>
    obtain ⟨rfl, rfl⟩ := Prod.mk.inj ha
    exact ⟨_, rfl, ht⟩

/-- Any other entry is a text: that of an attribute, or character data. -/
theorem EncodesEntry.exists_text {f : String × Value} {key : String} {t : Tree}
    (h : EncodesEntry e o path f (key, t)) (hk : ¬ IsFieldName key) :
    ∃ v text, e.wireText? v = some text ∧ t = .text text ∧
      (f = (key, v) ∧ Marker.isAttribute key = true ∧
          ¬ (key = Marker.kind ∧ (Kind.read? text).isSome) ∨
        f = (Marker.text, v) ∧ key = if Text.isPadded text then Marker.verbatim else Marker.text) := by
  generalize ha : (key, t) = a at h
  cases h with
  | attr hname ht plain =>
    obtain ⟨rfl, rfl⟩ := Prod.mk.inj ha
    exact ⟨_, _, ht, rfl, .inl ⟨rfl, by rw [Marker.isAttribute, hname]; rfl, plain⟩⟩
  | text ht =>
    obtain ⟨rfl, rfl⟩ := Prod.mk.inj ha
    exact ⟨_, _, ht, rfl, .inr ⟨rfl, rfl⟩⟩
  | child hchild _ => exact absurd ((Prod.mk.inj ha).1 ▸ hchild) hk

/-- The entry of the field for character data. -/
theorem EncodesEntry.exists_wireText {v : Value} {entry : String × Tree}
    (h : EncodesEntry e o path (Marker.text, v) entry) :
    ∃ text, e.wireText? v = some text ∧
      entry = (if Text.isPadded text then Marker.verbatim else Marker.text, .text text) := by
  cases h with
  | attr hk _ _ =>
    rw [show Marker.attributeName? Marker.text = none by decide] at hk
    cases hk
  | text ht => exact ⟨_, ht, rfl⟩
  | child hk _ => exact absurd hk (by decide)

theorem mem_of_forall₂_left {α β : Type} {R : α → β → Prop} {as : List α} {bs : List β}
    (h : List.Forall₂ R as bs) {a : α} (ha : a ∈ as) : ∃ b ∈ bs, R a b := by
  induction h with
  | nil => simp at ha
  | cons hr _ ih =>
    rcases List.mem_cons.1 ha with rfl | ha
    · exact ⟨_, List.mem_cons_self, hr⟩
    · obtain ⟨b, hb, hr⟩ := ih ha
      exact ⟨b, List.mem_cons_of_mem _ hb, hr⟩

theorem mem_of_forall₂_right {α β : Type} {R : α → β → Prop} {as : List α} {bs : List β}
    (h : List.Forall₂ R as bs) {b : β} (hb : b ∈ bs) : ∃ a ∈ as, R a b := by
  induction h with
  | nil => simp at hb
  | cons hr _ ih =>
    rcases List.mem_cons.1 hb with rfl | hb
    · exact ⟨_, List.mem_cons_self, hr⟩
    · obtain ⟨a, ha, hr⟩ := ih hb
      exact ⟨a, List.mem_cons_of_mem _ ha, hr⟩

theorem distinct_of_encodesEntry {own : Entries Tree}
    (h : List.Forall₂ (EncodesEntry e o path) fields own) (hd : fields.Distinct) :
    own.Distinct := by
  induction h with
  | nil => exact List.nodup_nil
  | @cons f a fields own hr hrest ih =>
    obtain ⟨hf, hd⟩ := Entries.distinct_cons.1 hd
    refine Entries.distinct_cons.2 ⟨fun hmem => hf ?_, ih hd⟩
    obtain ⟨t, ht⟩ := Entries.exists_of_mem_keys hmem
    obtain ⟨g, hg, hrel⟩ := mem_of_forall₂_right hrest ht
    rw [hr.key_injective hrel rfl]
    exact Entries.mem_keys_of_mem hg

theorem keys_of_fills {declared : Entries Field} {filled : Entries Tree}
    (h : List.Forall₂ (Fills e path) declared filled) : filled.keys = declared.keys := by
  induction h with
  | nil => rfl
  | cons hr _ ih => rw [Entries.keys_cons, Entries.keys_cons, hr.1, ih]

/-! ## Objects -/

/-- The entries of an object: its own, then those of missing fields. -/
def Lays (e : Encoder) (o : Option ObjectType) (path : Path) (skipCase : Bool)
    (fields : Entries Value) (entries : Entries Tree) : Prop :=
  ∃ own filled, List.Forall₂ (EncodesEntry e o path) (ownFields skipCase fields) own ∧
    List.Forall₂ (Fills e path) (missingFields o fields.keys) filled ∧ entries = own ++ filled

theorem mem_missingFields {present : List String} {f : String × Field} :
    f ∈ missingFields o present ↔
      (∃ t, o = some t ∧ f ∈ t.fields) ∧ f.1 ∉ present ∧ f.2.optional = false := by
  unfold missingFields
  cases o with
  | none => simp
  | some t => simp

theorem distinct_missingFields (ho : ∀ t, o = some t → t.WellKeyed) (present : List String) :
    (missingFields o present).Distinct := by
  unfold missingFields
  cases o with
  | none => exact List.nodup_nil
  | some t => exact (ho t rfl).distinct.filter _

/-- A missing field is none of the entries that are there. -/
theorem not_mem_keys_of_missing (ho : ∀ t, o = some t → t.WellKeyed) {skipCase : Bool}
    {own : Entries Tree}
    (h : List.Forall₂ (EncodesEntry e o path) (ownFields skipCase fields) own) {name : String}
    (hn : name ∈ (missingFields o fields.keys).keys) : name ∉ own.keys := by
  intro hmem
  obtain ⟨f, hf⟩ := Entries.exists_of_mem_keys hn
  obtain ⟨⟨t, ht, hft⟩, hnew, -⟩ := mem_missingFields.1 hf
  obtain ⟨u, hu⟩ := Entries.exists_of_mem_keys hmem
  obtain ⟨g, hg, hrel⟩ := mem_of_forall₂_right h hu
  rcases hrel.key with hk | ⟨-, hk⟩
  · exact hnew (hk ▸ Entries.mem_keys_of_mem (List.mem_of_mem_filter hg))
  · have hreserved := ((ho t ht).names name f hft).2
    rw [show name = Marker.verbatim from hk] at hreserved
    exact absurd hreserved (by decide)

theorem lays_iff (ho : ∀ t, o = some t → t.WellKeyed) {skipCase : Bool} {entries : Entries Tree} :
    (e.encodeFields skipCase fields o path >>= fun own => e.withMissing own fields o path) =
      .ok entries ↔ e.Lays o path skipCase fields entries := by
  simp only [bind_eq_ok_iff, encodeFields_eq_ok_iff, withMissing_eq_ok_iff, Lays]
  have happend : ∀ own filled,
      List.Forall₂ (EncodesEntry e o path) (ownFields skipCase fields) own →
      List.Forall₂ (Fills e path) (missingFields o fields.keys) filled →
      Entries.extend own filled = own ++ filled := by
    intro own filled hown hfilled
    have hkeys := keys_of_fills hfilled
    refine Entries.extend_eq_append ?_ fun key hk => ?_
    · rw [Entries.Distinct, hkeys]
      exact distinct_missingFields ho _
    · exact not_mem_keys_of_missing ho hown (hkeys ▸ hk)
  constructor
  · rintro ⟨own, hown, filled, hfilled, rfl⟩
    exact ⟨own, filled, hown, hfilled, happend own filled hown hfilled⟩
  · rintro ⟨own, filled, hown, hfilled, rfl⟩
    exact ⟨own, hown, filled, hfilled, (happend own filled hown hfilled).symm⟩

section

variable {skipCase : Bool} {entries : Entries Tree}

/-- Where the keys of the entries of an object come from. -/
theorem Lays.key_of_mem (h : e.Lays o path skipCase fields entries) {key : String}
    (hk : key ∈ entries.keys) :
    (key ∈ fields.keys ∧ isReserved key = false) ∨ key = Marker.verbatim ∨
      key ∈ (missingFields o fields.keys).keys := by
  obtain ⟨own, filled, hown, hfilled, rfl⟩ := h
  rw [Entries.keys_append, List.mem_append, keys_of_fills hfilled] at hk
  rcases hk with hk | hk
  · obtain ⟨t, ht⟩ := Entries.exists_of_mem_keys hk
    obtain ⟨f, hf, hrel⟩ := mem_of_forall₂_right hown ht
    rcases hrel.key with he | ⟨-, he⟩
    · have he : key = f.1 := he
      refine .inl ⟨?_, he ▸ hrel.isReserved⟩
      rw [he]
      exact Entries.mem_keys_of_mem (List.mem_of_mem_filter hf)
    · exact .inr (.inl he)
  · exact .inr (.inr hk)

theorem isFieldName_of_mem_missingFields (ho : ∀ t, o = some t → t.WellKeyed)
    {present : List String} {key : String} (hk : key ∈ (missingFields o present).keys) :
    IsFieldName key := by
  obtain ⟨f, hf⟩ := Entries.exists_of_mem_keys hk
  obtain ⟨⟨t, ht, hft⟩, -, -⟩ := mem_missingFields.1 hf
  exact (ho t ht).names key f hft

theorem Lays.distinct (ho : ∀ t, o = some t → t.WellKeyed) (hd : fields.Distinct)
    (h : e.Lays o path skipCase fields entries) : entries.Distinct := by
  obtain ⟨own, filled, hown, hfilled, rfl⟩ := h
  have hkeys := keys_of_fills hfilled
  rw [Entries.Distinct, Entries.keys_append, List.nodup_append]
  refine ⟨distinct_of_encodesEntry hown (hd.filter _), ?_, ?_⟩
  · rw [hkeys]
    exact distinct_missingFields ho _
  · rintro key hk other hother rfl
    exact not_mem_keys_of_missing ho hown (hkeys ▸ hother) hk

theorem Lays.variant_not_mem (ho : ∀ t, o = some t → t.WellKeyed)
    (h : e.Lays o path skipCase fields entries) : Marker.variant ∉ entries.keys := by
  intro hk
  rcases h.key_of_mem hk with ⟨-, hreserved⟩ | heq | hmissing
  · exact absurd hreserved (by decide)
  · exact absurd heq (by decide)
  · exact absurd (isFieldName_of_mem_missingFields ho hmissing).2 (by decide)

theorem Lays.exists_entry (h : e.Lays o path skipCase fields entries) {f : String × Value}
    (hf : f ∈ ownFields skipCase fields) : ∃ a ∈ entries, EncodesEntry e o path f a := by
  obtain ⟨own, filled, hown, -, rfl⟩ := h
  obtain ⟨a, ha, hrel⟩ := mem_of_forall₂_left hown hf
  exact ⟨a, List.mem_append_left _ ha, hrel⟩

theorem Lays.exists_filled (h : e.Lays o path skipCase fields entries) {f : String × Field}
    (hf : f ∈ missingFields o fields.keys) : ∃ t, (f.1, t) ∈ entries := by
  obtain ⟨own, filled, -, hfilled, rfl⟩ := h
  obtain ⟨⟨key, t⟩, ha, hkey, -⟩ := mem_of_forall₂_left hfilled hf
  exact ⟨t, List.mem_append_right _ (hkey ▸ ha)⟩

/-- An entry is that of a field or has been filled in. -/
theorem Lays.cases_mem (h : e.Lays o path skipCase fields entries) {a : String × Tree}
    (ha : a ∈ entries) : (∃ f ∈ ownFields skipCase fields, EncodesEntry e o path f a) ∨
      ∃ f ∈ missingFields o fields.keys, Fills e path f a := by
  obtain ⟨own, filled, hown, hfilled, rfl⟩ := h
  rcases List.mem_append.1 ha with ha | ha
  · exact .inl (mem_of_forall₂_right hown ha)
  · exact .inr (mem_of_forall₂_right hfilled ha)

/-- An entry that is no child is that of a field. -/
theorem Lays.field_of_mem (ho : ∀ t, o = some t → t.WellKeyed)
    (h : e.Lays o path skipCase fields entries) {key : String} (hk : ¬ IsFieldName key) {t : Tree}
    (ht : (key, t) ∈ entries) : ∃ f ∈ ownFields skipCase fields, EncodesEntry e o path f (key, t) := by
  rcases h.cases_mem ht with hown | ⟨f, hf, hkey, -⟩
  · exact hown
  · have hname := isFieldName_of_mem_missingFields ho (Entries.mem_keys_of_mem hf)
    have heq : key = f.1 := hkey
    exact absurd (heq ▸ hname) hk

/-- A child is that of a field, or has been filled in for a missing one. -/
theorem Lays.cases_child (h : e.Lays o path skipCase fields entries) {key : String}
    (hk : IsFieldName key) {t : Tree} (ht : (key, t) ∈ entries) :
    (∃ v, (key, v) ∈ ownFields skipCase fields ∧
        e.encode v ((declared? o key).map Field.schema) ((declared? o key).any Field.verbatim)
          (path.child key) = .ok t) ∨
      ∃ f, (key, f) ∈ missingFields o fields.keys ∧ e.fill f (path.child key) = .ok t := by
  rcases h.cases_mem ht with ⟨f, hf, hrel⟩ | ⟨⟨name, f⟩, hf, hkey, hfill⟩
  · obtain ⟨v, rfl, hv⟩ := hrel.exists_child hk
    exact .inl ⟨v, hf, hv⟩
  · obtain rfl : key = name := hkey
    exact .inr ⟨f, hf, hfill⟩

theorem Lays.exists_eq_text (ho : ∀ t, o = some t → t.WellKeyed)
    (h : e.Lays o path skipCase fields entries) {key : String} (hk : ¬ IsFieldName key) {t : Tree}
    (ht : (key, t) ∈ entries) : ∃ text, t = .text text := by
  obtain ⟨f, -, hrel⟩ := h.field_of_mem ho hk ht
  obtain ⟨-, text, -, rfl, -⟩ := hrel.exists_text hk
  exact ⟨text, rfl⟩

/-- An attribute is that of a field, and a text. -/
theorem Lays.exists_attribute (ho : ∀ t, o = some t → t.WellKeyed)
    (h : e.Lays o path skipCase fields entries) {key : String}
    (ha : Marker.isAttribute key = true) {t : Tree} (ht : (key, t) ∈ entries) :
    ∃ v text, (key, v) ∈ ownFields skipCase fields ∧ e.wireText? v = some text ∧
      t = .text text ∧ ¬ (key = Marker.kind ∧ (Kind.read? text).isSome) := by
  have hk := not_isFieldName_of_isAttribute ha
  obtain ⟨f, hf, hrel⟩ := h.field_of_mem ho hk ht
  obtain ⟨v, text, hv, rfl, ⟨rfl, -, plain⟩ | ⟨-, hkey⟩⟩ := hrel.exists_text hk
  · exact ⟨v, text, hf, hv, rfl, plain⟩
  · split at hkey <;> subst hkey <;> exact absurd ha (by decide)

/-- Character data, verbatim or not, is that of the field for it. -/
theorem Lays.exists_data (ho : ∀ t, o = some t → t.WellKeyed)
    (h : e.Lays o path skipCase fields entries) {key : String} (hk : ¬ IsFieldName key)
    (ha : Marker.isAttribute key = false) {t : Tree} (ht : (key, t) ∈ entries) :
    ∃ v text, (Marker.text, v) ∈ ownFields skipCase fields ∧ e.wireText? v = some text ∧
      t = .text text ∧ key = if Text.isPadded text then Marker.verbatim else Marker.text := by
  obtain ⟨f, hf, hrel⟩ := h.field_of_mem ho hk ht
  obtain ⟨v, text, hv, rfl, ⟨-, hattribute, -⟩ | ⟨rfl, hkey⟩⟩ := hrel.exists_text hk
  · rw [ha] at hattribute
    cases hattribute
  · exact ⟨v, text, hf, hv, rfl, hkey⟩

/-- No entry of an object spells a kind. -/
theorem Lays.kind (ho : ∀ t, o = some t → t.WellKeyed)
    (h : e.Lays o path skipCase fields entries) {t : Tree} (ht : (Marker.kind, t) ∈ entries) :
    ∃ text, t = .text text ∧ Kind.read? text = none := by
  obtain ⟨v, text, -, -, rfl, plain⟩ := h.exists_attribute ho (by decide) ht
  refine ⟨text, rfl, ?_⟩
  by_contra hne
  exact plain ⟨rfl, Option.isSome_iff_ne_none.2 hne⟩

/-- The text of an element is either escaped or verbatim. -/
theorem Lays.text_not_mem (ho : ∀ t, o = some t → t.WellKeyed) (hd : fields.Distinct)
    (h : e.Lays o path skipCase fields entries) {t : Tree} (ht : (Marker.verbatim, t) ∈ entries) :
    Marker.text ∉ entries.keys := by
  intro hmem
  obtain ⟨u, hu⟩ := Entries.exists_of_mem_keys hmem
  obtain ⟨f, hf, hrel⟩ := h.field_of_mem ho (by decide) ht
  obtain ⟨g, hg, hrel'⟩ := h.field_of_mem ho (by decide) hu
  have hfkey : f.1 = Marker.text := by
    rcases hrel.key with hk | ⟨hk, -⟩
    · exact absurd hk.symm (ne_of_isReserved Marker.verbatim (by decide) hrel.isReserved)
    · exact hk
  have hgkey : g.1 = Marker.text := by
    rcases hrel'.key with hk | ⟨hk, -⟩
    · exact hk.symm
    · exact hk
  have hdistinct : (ownFields skipCase fields).Distinct := hd.filter _
  have hfg : f = g := by
    have hv := (Entries.get?_eq_some_iff hdistinct).2 (show (f.1, f.2) ∈ _ from hf)
    have hw := (Entries.get?_eq_some_iff hdistinct).2 (show (g.1, g.2) ∈ _ from hg)
    rw [hfkey] at hv
    rw [hgkey, hv] at hw
    exact Prod.ext (hfkey.trans hgkey.symm) (Option.some.inj hw)
  subst hfg
  exact absurd (Prod.mk.inj (hrel.unique hrel')).1 (by decide)

/-- The character data of a field stands under the marker for its text, and under no other. -/
theorem Lays.get?_data (ho : ∀ t, o = some t → t.WellKeyed) (hd : fields.Distinct)
    (h : e.Lays o path skipCase fields entries) {v : Value} {text : String}
    (hv : (Marker.text, v) ∈ ownFields skipCase fields) (ht : e.wireText? v = some text) :
    Entries.get? entries Marker.text = (if Text.isPadded text then none else some (.text text)) ∧
      Entries.get? entries Marker.verbatim =
        if Text.isPadded text then some (.text text) else none := by
  obtain ⟨a, ha, hrel⟩ := h.exists_entry hv
  obtain ⟨text', ht', rfl⟩ := hrel.exists_wireText
  obtain rfl := Option.some.inj (ht.symm.trans ht')
  have hget := (Entries.get?_eq_some_iff (h.distinct ho hd)).2 ha
  split at ha
  · next hp =>
    rw [if_pos hp] at hget
    rw [if_pos hp, if_pos hp, Entries.get?_eq_none_iff.2 (h.text_not_mem ho hd ha)]
    exact ⟨rfl, hget⟩
  · next hp =>
    have hverbatim : Marker.verbatim ∉ entries.keys := by
      intro hmem
      obtain ⟨t, ht⟩ := Entries.exists_of_mem_keys hmem
      exact h.text_not_mem ho hd ht (Entries.mem_keys_of_mem ha)
    rw [if_neg hp] at hget
    rw [if_neg hp, if_neg hp, Entries.get?_eq_none_iff.2 hverbatim]
    exact ⟨hget, rfl⟩

theorem extend_variant {case : String} (hd : entries.Distinct)
    (hv : Marker.variant ∉ entries.keys) :
    Entries.extend [(Marker.variant, .text case)] entries =
      (Marker.variant, .text case) :: entries := by
  rw [Entries.extend_eq_append hd]
  · rfl
  · rintro key hk hmem
    have heq : key = Marker.variant := List.mem_singleton.1 hmem
    exact hv (heq ▸ hk)

end

end Encoder

end TaggedMarkup
