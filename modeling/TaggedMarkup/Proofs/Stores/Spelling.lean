import TaggedMarkup.Proofs.Decoding.ReadBack
import TaggedMarkup.Proofs.Markup.Names
import TaggedMarkup.Proofs.Numeral
import TaggedMarkup.Proofs.Wire
/-!
# Values that are spelt the same

Decoding one tree against two stores gives values that differ only in that one may hold a reference
where the other holds the text that spells it. Such values are compared field by field: entries are
aligned if they have the same keys in the same places and related values under each.
-/
namespace TaggedMarkup

namespace Entries

variable {α : Type} {R : String → α → α → Prop} {es fs : Entries α}

/-- The same keys in the same places, and related values under each. -/
def Aligned (R : String → α → α → Prop) (es fs : Entries α) : Prop :=
  List.Forall₂ (fun e f => e.1 = f.1 ∧ R e.1 e.2 f.2) es fs

namespace Aligned

theorem refl (hR : ∀ key a, R key a a) (es : Entries α) : Aligned R es es :=
  List.forall₂_same.2 fun e _ => ⟨rfl, hR e.1 e.2⟩

theorem singleton {key : String} {a b : α} (hab : R key a b) :
    Aligned R [(key, a)] [(key, b)] := .cons ⟨rfl, hab⟩ .nil

theorem flip (h : Aligned R es fs) : Aligned (fun key b a => R key a b) fs es :=
  (List.Forall₂.imp (fun _ _ he => ⟨he.1.symm, he.1 ▸ he.2⟩) h).flip

theorem eq_singleton {key : String} {a : α} (h : Aligned R [(key, a)] fs) :
    ∃ b, fs = [(key, b)] := by
  cases h with
  | @cons _ f _ _ he hrest =>
    obtain ⟨k, b⟩ := f
    obtain rfl : key = k := he.1
    cases hrest
    exact ⟨b, rfl⟩

theorem keys_eq (h : Aligned R es fs) : es.keys = fs.keys := by
  induction h with
  | nil => rfl
  | cons he _ ih => rw [keys_cons, keys_cons, he.1, ih]

theorem lookup (h : Aligned R es fs) (key : String) :
    Option.Rel (R key) (get? es key) (get? fs key) := by
  induction h with
  | nil => exact .none
  | @cons e f _ _ he _ ih =>
    obtain ⟨k, a⟩ := e
    obtain ⟨k', b⟩ := f
    obtain ⟨rfl, hab⟩ := he
    rw [get?_cons, get?_cons]
    split
    · next hk => exact .some (hk ▸ hab)
    · exact ih

theorem insert (h : Aligned R es fs) (key : String) {a b : α} (hab : R key a b) :
    Aligned R (insert es key a) (insert fs key b) := by
  induction h with
  | nil => exact .cons ⟨rfl, hab⟩ .nil
  | @cons e f _ _ he hrest ih =>
    obtain ⟨k, a'⟩ := e
    obtain ⟨k', b'⟩ := f
    obtain ⟨rfl, hab'⟩ := he
    rw [Entries.insert, Entries.insert]
    split
    · next hk => exact .cons ⟨rfl, hk ▸ hab⟩ hrest
    · exact .cons ⟨rfl, hab'⟩ ih

theorem extend (h : Aligned R es fs) {more more' : Entries α} (hmore : Aligned R more more') :
    Aligned R (extend es more) (extend fs more') := by
  induction hmore generalizing es fs with
  | nil => exact h
  | @cons e f _ _ he _ ih =>
    obtain ⟨k, a⟩ := e
    obtain ⟨k', b⟩ := f
    obtain ⟨rfl, hab⟩ := he
    exact ih (h.insert k hab)

theorem filter (h : Aligned R es fs) (p : String → Bool) :
    Aligned R (es.filter fun e => p e.1) (fs.filter fun e => p e.1) := by
  induction h with
  | nil => exact .nil
  | cons he _ ih =>
    rw [List.filter_cons, List.filter_cons, he.1]
    split
    · exact .cons he ih
    · exact ih

theorem all_eq (h : Aligned R es fs) {p : α → Bool} (hp : ∀ key a b, R key a b → p a = p b) :
    (es.all fun e => p e.2) = fs.all fun e => p e.2 := by
  induction h with
  | nil => rfl
  | cons he _ ih => rw [List.all_cons, List.all_cons, hp _ _ _ he.2, ih]

end Aligned

end Entries

/-! ## Labels -/

/-- No text that spells an entry is the text of a number or truth value. -/
def Convention.SpellsNoScalar (c : Convention) : Prop :=
  ∀ text p, c.parse? text = some p → Number.canonical? text = none ∧ canonicalBool? text = none

/-- The text of a number starts with a digit or a sign. -/
theorem Number.exists_head_text (n : Number) :
    ∃ c rest, n.text.toList = c :: rest ∧ (c.isDigit = true ∨ c = '-') := by
  cases n with
  | integer n _ =>
    rw [text, integerText, String.toList_ofList]
    split
    · exact ⟨_, _, rfl, .inr rfl⟩
    · obtain ⟨c, rest, hlist⟩ :=
        List.exists_cons_of_ne_nil (Nat.toDigits_ne_nil (n := n.natAbs) (b := 10))
      have hc : c ∈ Nat.toDigits 10 n.natAbs := hlist ▸ List.mem_cons_self
      exact ⟨c, rest, hlist, .inl (Nat.isDigit_of_mem_toDigits (by decide) (by decide) hc)⟩
  | real x =>
    rw [text, Binary64.text, String.toList_ofList]
    split
    · exact ⟨_, _, rfl, .inr rfl⟩
    · obtain ⟨n, e, hspells, -⟩ := x.spells_magnitudeText
      obtain ⟨c, rest, hlist, hc⟩ := hspells.exists_cons
      exact ⟨c, rest, hlist, .inl hc⟩

/-- Collection ids start with an ASCII letter. -/
def Convention.IsLettered (c : Convention) : Prop :=
  ∃ first rest, c.collectionStem.toList = first :: rest ∧ first.isAlpha = true

theorem Convention.standard_isLettered : standard.IsLettered := ⟨_, _, rfl, by decide⟩

theorem isDigit_of_isAlpha {c : Char} (h : c.isAlpha = true) : c.isDigit = false := by
  by_contra hd
  have halpha : c.isAlpha = (decide (c.val ≥ 65 ∧ c.val ≤ 90) ||
      (decide (c.val ≥ 97) && decide (c.val ≤ 122))) := rfl
  have hdigit : c.isDigit = (decide (c.val ≥ 48) && decide (c.val ≤ 57)) := rfl
  simp only [halpha, hdigit, Bool.or_eq_true, Bool.and_eq_true, decide_eq_true_eq, ge_iff_le,
    UInt32.le_iff_toNat_le, Bool.not_eq_false] at h hd
  rcases h with ⟨h, -⟩ | ⟨h, -⟩ <;> exact absurd (h.trans hd.2) (by decide)

/-- A number starts with no letter, and in a truth value there is no point. -/
theorem Convention.IsLettered.spellsNoScalar {c : Convention} (h : c.IsLettered) :
    c.SpellsNoScalar := by
  intro text p hp
  obtain ⟨hdisplay, -, -, hadmits⟩ := parse?_eq_some hp
  obtain ⟨first, rest, hstem, hfirst⟩ := h
  constructor
  · obtain ⟨more, hmore⟩ := List.isPrefixOf_iff_prefix.1 hadmits
    have hhead : text.toList = first :: (rest ++ more ++ '.' :: p.entry.toList) := by
      rw [← hdisplay, EntryPath.display, String.toList_append, String.toList_append, ← hmore, hstem]
      simp
    by_contra hne
    obtain ⟨n, hn⟩ := Option.ne_none_iff_exists'.1 hne
    obtain ⟨c, rest', hlist, hc⟩ := n.exists_head_text
    rw [Number.text_of_canonical? hn, hhead] at hlist
    obtain ⟨rfl, -⟩ := List.cons.inj hlist
    rcases hc with hc | rfl
    · exact absurd hc (by simp [isDigit_of_isAlpha hfirst])
    · exact absurd hfirst (by decide)
  · have hpoint : '.' ∈ text.toList := by
      rw [← hdisplay, EntryPath.display, String.toList_append, String.toList_append]
      simp
    by_contra hne
    obtain ⟨b, hb⟩ := Option.ne_none_iff_exists'.1 hne
    rw [canonicalBool?_eq_some_iff.1 hb] at hpoint
    cases b <;> exact absurd hpoint (by decide)

/-- Collection ids start with a letter. -/
theorem Convention.standard_spellsNoScalar : standard.SpellsNoScalar :=
  standard_isLettered.spellsNoScalar

namespace Value

/-- The text that a string holds, or that a reference is written as. -/
def label? (c : Convention) : Value → Option String
  | .reference r => some (c.render r)
  | .string t => some t
  | _ => none

/-- Equal but for references that stand against the texts that spell them. A field that may keep a
case must be the same text on both sides or on neither. -/
inductive SameSpelling (c : Convention) : Value → Value → Prop
  | refl (v : Value) : SameSpelling c v v
  | label {v w : Value} {text : String} {p : EntryPath} (hp : c.parse? text = some p)
      (hv : v.label? c = some text) (hw : w.label? c = some text) : SameSpelling c v w
  | list {xs ys : List Value} (length : xs.length = ys.length)
      (each : ∀ v w, (v, w) ∈ xs.zip ys → SameSpelling c v w) : SameSpelling c (.list xs) (.list ys)
  | object {es fs : Entries Value} (length : es.length = fs.length)
      (keys : ∀ e f, (e, f) ∈ es.zip fs → e.1 = f.1)
      (each : ∀ e f, (e, f) ∈ es.zip fs → SameSpelling c e.2 f.2)
      (case : ∀ e f, (e, f) ∈ es.zip fs → e.1 = Marker.untypedCase →
        e.2.asString? = f.2.asString?) :
      SameSpelling c (.object es) (.object fs)

/-- Fields that are spelt the same. -/
def SameField (c : Convention) (key : String) (v w : Value) : Prop :=
  v.SameSpelling c w ∧ (key = Marker.untypedCase → v.asString? = w.asString?)

namespace SameSpelling

variable {c : Convention} {v w : Value}

theorem of_items {xs ys : List Value} (h : List.Forall₂ (SameSpelling c) xs ys) :
    SameSpelling c (.list xs) (.list ys) :=
  .list h.length_eq fun _ _ hm => (List.forall₂_iff_zip.1 h).2 hm

theorem of_fields {es fs : Entries Value} (h : Entries.Aligned (SameField c) es fs) :
    SameSpelling c (.object es) (.object fs) := by
  obtain ⟨length, hzip⟩ := List.forall₂_iff_zip.1 h
  exact .object length (fun _ _ hm => (hzip hm).1) (fun _ _ hm => (hzip hm).2.1)
    fun _ _ hm => (hzip hm).2.2

theorem isEmptyContainer_eq (h : v.SameSpelling c w) :
    v.isEmptyContainer = w.isEmptyContainer := by
  have hlabel : ∀ {v : Value} {text : String}, v.label? c = some text →
      v.isEmptyContainer = false := by
    intro v text hv
    cases v with
    | object | list => cases hv
    | _ => rfl
  cases h with
  | refl => rfl
  | label _ hv hw => rw [hlabel hv, hlabel hw]
  | @list xs ys length => cases xs <;> cases ys <;> simp_all [isEmptyContainer]
  | @object es fs length => cases es <;> cases fs <;> simp_all [isEmptyContainer]

end SameSpelling

end Value

/-! ## Decoding with two tables -/

/-- Every outcome is the reference to the entry that was looked up. -/
def Resolutions.Faithful (r : Resolutions) (c : Convention) : Prop :=
  ∀ p ref, r.get? p = some ref → ref = c.reference p

theorem Convention.faithful_resolveAll (c : Convention) (store : Store) (ps : List EntryPath) :
    (c.resolveAll store ps).Faithful c := by
  intro p ref hget
  rw [get?_resolveAll] at hget
  split at hget
  · exact eq_reference_of_resolve? hget
  · cases hget

/-- A text that spells an entry is not empty. -/
theorem Convention.ne_empty_of_parse? {c : Convention} {text : String} {p : EntryPath}
    (hp : c.parse? text = some p) : text ≠ "" := by
  rintro rfl
  have hlength := congrArg String.length (parse?_eq_some hp).1
  simp [EntryPath.display] at hlength

namespace Decoder

variable {registry : Registry} {c : Convention} {k : Bool} {r₁ r₂ : Resolutions}

theorem keeps_eq_of_sameSpelling {d₁ d₂ : Decoder} (hd : d₁.keepEmpty = d₂.keepEmpty) {v w : Value}
    (h : v.SameSpelling c w) : d₁.keeps v = d₂.keeps w := by
  unfold keeps
  rw [h.isEmptyContainer_eq, hd]

/-- An item is kept on both sides or on neither. -/
theorem sameSpelling_kept {d₁ d₂ : Decoder} (hd : d₁.keepEmpty = d₂.keepEmpty) {v w : Value}
    (h : v.SameSpelling c w) {vs ws : List Value}
    (hrest : List.Forall₂ (Value.SameSpelling c) vs ws) :
    List.Forall₂ (Value.SameSpelling c) (if d₁.keeps v then v :: vs else vs)
      (if d₂.keeps w then w :: ws else ws) := by
  rw [keeps_eq_of_sameSpelling hd h]
  split
  · exact .cons h hrest
  · exact hrest

/-- A text that spells an entry is the label of what it is decoded as. -/
theorem label?_scalar (hc : c.SpellsNoScalar) {r : Resolutions} (h : r.Faithful c) {text : String}
    {p : EntryPath} (hp : c.parse? text = some p) (hint : Option Schema) :
    (scalar ⟨registry, c, r, k⟩ text hint).label? c = some text := by
  obtain ⟨hdisplay, -, -, hadmits⟩ := Convention.parse?_eq_some hp
  obtain ⟨hnumber, hbool⟩ := hc text p hp
  unfold scalar reference?
  rw [hp, Option.bind_some]
  split
  · next ref href =>
    rw [h p ref href, Value.label?, Convention.render_reference hadmits, hdisplay]
  · have hempty : text.isEmpty = false := by
      rw [← Bool.not_eq_true, String.isEmpty_iff]
      exact Convention.ne_empty_of_parse? hp
    -- Every reading of a literal falls back to the text, which is no number and no truth value.
    unfold literal natural number bool
    rw [hnumber, hbool, hempty]
    split <;> rfl

theorem sameSpelling_scalar (hc : c.SpellsNoScalar) (h₁ : r₁.Faithful c) (h₂ : r₂.Faithful c)
    (text : String) (hint : Option Schema) : Value.SameSpelling c
      (scalar ⟨registry, c, r₁, k⟩ text hint) (scalar ⟨registry, c, r₂, k⟩ text hint) := by
  cases hp : c.parse? text with
  | some p => exact .label hp (label?_scalar hc h₁ hp hint) (label?_scalar hc h₂ hp hint)
  | none =>
    unfold scalar reference?
    rw [hp]
    exact .refl _

/-- Whatever a case makes of fields, it makes of fields that are spelt the same. -/
theorem sameSpelling_asCase {d₁ d₂ : Decoder} (hd : d₁.registry = d₂.registry)
    {f g : Option ObjectType → Entries Value}
    (h : ∀ o, Entries.Aligned (Value.SameField c) (f o) (g o)) (hint : Option Schema)
    (case : String) : Value.SameSpelling c (d₁.asCase hint case f) (d₂.asCase hint case g) := by
  have hobject : ∀ o, Value.SameSpelling c (.object (f o)) (.object (g o)) :=
    fun o => .of_fields (h o)
  exact asCase_related hd hobject
    (fun o => .of_fields (.extend (.singleton ⟨.refl _, fun _ => rfl⟩) (h o)))
    fun o => .of_fields (.singleton ⟨hobject o, fun _ => rfl⟩)

mutual

theorem sameSpelling_decode (hc : c.SpellsNoScalar) (h₁ : r₁.Faithful c) (h₂ : r₂.Faithful c)
    (t : Tree) (ht : t.lacks Marker.untypedCase = true) (hint : Option Schema) :
    Value.SameSpelling c (decode ⟨registry, c, r₁, k⟩ t hint)
      (decode ⟨registry, c, r₂, k⟩ t hint) := by
  match t with
  | .text text =>
    rw [decode, decode]
    exact sameSpelling_scalar hc h₁ h₂ text hint
  | .list items =>
    rw [decode, decode]
    exact .of_items (sameSpelling_decodeItems hc h₁ h₂ items ht _)
  | .map entries =>
    rw [decode, decode]
    split
    · exact .refl _
    · exact .of_items (sameSpelling_decodeItem hc h₁ h₂ entries ht _)
    · exact .refl _
    · exact .refl _
    · exact .of_fields (sameField_decodeFields hc h₁ h₂ false entries ht _)
    · exact sameSpelling_asCase (by rfl)
        (fun o => sameField_decodeFields hc h₁ h₂ true entries ht o) hint _

theorem sameSpelling_decodeItems (hc : c.SpellsNoScalar) (h₁ : r₁.Faithful c) (h₂ : r₂.Faithful c)
    (items : List Tree) (ht : Tree.itemsLack Marker.untypedCase items = true)
    (hint : Option Schema) :
    List.Forall₂ (Value.SameSpelling c) (decodeItems ⟨registry, c, r₁, k⟩ items hint)
      (decodeItems ⟨registry, c, r₂, k⟩ items hint) := by
  match items with
  | [] => exact .nil
  | t :: rest =>
    rw [Tree.itemsLack, Bool.and_eq_true] at ht
    exact sameSpelling_kept rfl (sameSpelling_decode hc h₁ h₂ t ht.1 hint)
      (sameSpelling_decodeItems hc h₁ h₂ rest ht.2 hint)

theorem sameSpelling_decodeItem (hc : c.SpellsNoScalar) (h₁ : r₁.Faithful c) (h₂ : r₂.Faithful c)
    (entries : List (String × Tree))
    (ht : Tree.entriesLack Marker.untypedCase entries = true) (hint : Option Schema) :
    List.Forall₂ (Value.SameSpelling c) (decodeItem ⟨registry, c, r₁, k⟩ entries hint)
      (decodeItem ⟨registry, c, r₂, k⟩ entries hint) := by
  match entries with
  | [] => exact .nil
  | (key, t) :: rest =>
    rw [Tree.entriesLack, Bool.and_eq_true, Bool.and_eq_true] at ht
    by_cases hk : key = Marker.item
    · cases t with
      | list items =>
        simp only [decodeItem, if_pos hk]
        exact sameSpelling_decodeItems hc h₁ h₂ items ht.1.2 hint
      | text text =>
        simp only [decodeItem, if_pos hk]
        exact sameSpelling_kept rfl (sameSpelling_decode hc h₁ h₂ (.text text) ht.1.2 hint) .nil
      | map inner =>
        simp only [decodeItem, if_pos hk]
        exact sameSpelling_kept rfl (sameSpelling_decode hc h₁ h₂ (.map inner) ht.1.2 hint) .nil
    · cases t <;>
        (simp only [decodeItem, if_neg hk]
         exact sameSpelling_decodeItem hc h₁ h₂ rest ht.2 hint)

theorem sameField_decodeFields (hc : c.SpellsNoScalar) (h₁ : r₁.Faithful c) (h₂ : r₂.Faithful c)
    (skipCase : Bool) (entries : List (String × Tree))
    (ht : Tree.entriesLack Marker.untypedCase entries = true) (o : Option ObjectType) :
    Entries.Aligned (Value.SameField c)
      (decodeFields ⟨registry, c, r₁, k⟩ skipCase entries o)
      (decodeFields ⟨registry, c, r₂, k⟩ skipCase entries o) := by
  match entries with
  | [] => exact .nil
  | (key, t) :: rest =>
    rw [Tree.entriesLack, Bool.and_eq_true, Bool.and_eq_true] at ht
    have hrest := sameField_decodeFields hc h₁ h₂ skipCase rest ht.2 o
    -- Only here the missing element counts: a reference under its name would keep no case.
    have hne : key ≠ Marker.untypedCase := by simpa using ht.1.1
    have hvalue : Value.SameSpelling c (fieldValue ⟨registry, c, r₁, k⟩ o key t)
        (fieldValue ⟨registry, c, r₂, k⟩ o key t) := by
      unfold fieldValue
      split
      · exact .refl _
      · exact sameSpelling_decode hc h₁ h₂ t ht.1.2 _
    have hkeeps : keeps ⟨registry, c, r₁, k⟩ (fieldValue ⟨registry, c, r₁, k⟩ o key t) =
        keeps ⟨registry, c, r₂, k⟩ (fieldValue ⟨registry, c, r₂, k⟩ o key t) :=
      keeps_eq_of_sameSpelling rfl hvalue
    rw [decodeFields, decodeFields]
    split
    · exact hrest
    · change Entries.Aligned _ (if keeps _ (fieldValue _ o key t) = true then _ else _)
        (if keeps _ (fieldValue _ o key t) = true then _ else _)
      rw [hkeeps]
      split
      · exact .cons ⟨rfl, hvalue, fun heq => absurd heq hne⟩ hrest
      · exact hrest

end

theorem sameSpelling_decodeDocument (hc : c.SpellsNoScalar) (h₁ : r₁.Faithful c)
    (h₂ : r₂.Faithful c) (t : Tree) (ht : t.lacks Marker.untypedCase = true) (schema : Schema) :
    Value.SameSpelling c (decodeDocument ⟨registry, c, r₁, k⟩ t schema)
      (decodeDocument ⟨registry, c, r₂, k⟩ t schema) := by
  have hvalue : Value.SameSpelling c (decode ⟨registry, c, r₁, k⟩ t (some schema))
      (decode ⟨registry, c, r₂, k⟩ t (some schema)) := sameSpelling_decode hc h₁ h₂ t ht _
  unfold decodeDocument
  revert hvalue
  generalize decode ⟨registry, c, r₁, k⟩ t (some schema) = v,
    decode ⟨registry, c, r₂, k⟩ t (some schema) = w
  intro hvalue
  cases hvalue with
  | refl => exact .refl _
  | label hp hv hw =>
    have hne := Convention.ne_empty_of_parse? hp
    split
    · cases hv
    · exact absurd (Option.some.inj hv).symm hne
    · split
      · cases hw
      · exact absurd (Option.some.inj hw).symm hne
      · exact .of_fields (.singleton ⟨.label hp hv hw, fun h => absurd h (by decide)⟩)
  | list length each =>
    exact .of_fields (.singleton ⟨.list length each, fun _ => rfl⟩)
  | object length keys each case => exact .object length keys each case

end Decoder

end TaggedMarkup
