import TaggedMarkup.Proofs.Encoding.Paths
import TaggedMarkup.Proofs.Profile
import TaggedMarkup.Proofs.Stores.Spelling
import TaggedMarkup.Reference.Collection
/-!
# What a store holds does not change what is written

A text that spells an entry is written plainly or verbatim, and a reference plainly. Values that are
spelt the same are therefore encoded as trees that are equal once verbatim text is read as plain
text: no other step tells a reference from its text, unless it stands where a case is kept.
-/
namespace TaggedMarkup

namespace Tree

/-- The text of an element that holds verbatim text alone. -/
def verbatimText? : Entries Tree → Option String
  | [(key, .text t)] => if key = Marker.verbatim then some t else none
  | _ => none

mutual

/-- The tree with verbatim text read as plain text. -/
def plain : Tree → Tree
  | text t => text t
  | list items => list (plainItems items)
  | map entries =>
    match verbatimText? entries with
    | some t => text t
    | none => map (plainEntries entries)

def plainItems : List Tree → List Tree
  | [] => []
  | t :: rest => plain t :: plainItems rest

def plainEntries : List (String × Tree) → List (String × Tree)
  | [] => []
  | (key, t) :: rest => (key, plain t) :: plainEntries rest

end

/-- Equal with verbatim text read as plain text, and empty markers on both sides or on neither. -/
def SamePlain (t u : Tree) : Prop := t.plain = u.plain ∧ t.isPlaceholder = u.isPlaceholder

/-- Entries that are the same in plain text; those that mark their element are equal. -/
def SameEntry (key : String) (t u : Tree) : Prop :=
  t.SamePlain u ∧ (key = Marker.kind ∨ key = Marker.verbatim → t = u)

theorem SamePlain.refl (t : Tree) : t.SamePlain t := ⟨rfl, rfl⟩

theorem SameEntry.refl (key : String) (t : Tree) : SameEntry key t t := ⟨.refl t, fun _ => rfl⟩

section

variable {es fs : Entries Tree}

theorem verbatimText?_eq (h : Entries.Aligned SameEntry es fs) :
    verbatimText? es = verbatimText? fs := by
  have hother : ∀ key t, key ≠ Marker.verbatim → verbatimText? [(key, t)] = none := by
    intro key t hk
    cases t with
    | text t => exact if_neg hk
    | _ => rfl
  cases h with
  | nil => rfl
  | @cons e f _ _ he hrest =>
    obtain ⟨key, t⟩ := e
    obtain ⟨key', u⟩ := f
    obtain ⟨rfl, htu⟩ := he
    cases hrest with
    | nil =>
      by_cases hk : key = Marker.verbatim
      · rw [show t = u from htu.2 (.inr hk)]
      · rw [hother key t hk, hother key u hk]
    | cons _ _ =>
      cases t <;> cases u <;> rfl

theorem samePlain_map (h : Entries.Aligned SameEntry es fs) : (map es).SamePlain (map fs) := by
  constructor
  · have hentries : plainEntries es = plainEntries fs := by
      induction h with
      | nil => rfl
      | @cons e f _ _ he _ ih =>
        obtain ⟨key, t⟩ := e
        obtain ⟨key', u⟩ := f
        obtain ⟨rfl, htu⟩ := he
        rw [plainEntries, plainEntries, ih, show t.plain = u.plain from htu.1.1]
    rw [plain, plain, verbatimText?_eq h, hentries]
  · have hkind : kindMarker? (map es) = kindMarker? (map fs) := by
      change (Entries.get? es Marker.kind).bind asText? = (Entries.get? fs Marker.kind).bind asText?
      match Entries.get? es Marker.kind, Entries.get? fs Marker.kind, h.lookup Marker.kind with
      | _, _, .none => rfl
      | _, _, .some htu => rw [htu.2 (.inl rfl)]
    rw [isPlaceholder, isPlaceholder, hkind]
    simp only [asEntries?, Option.any_some, List.Forall₂.length_eq h]

theorem plainItems_eq {ts us : List Tree} (h : List.Forall₂ SamePlain ts us) :
    plainItems ts = plainItems us := by
  induction h with
  | nil => rfl
  | cons htu _ ih => rw [plainItems, plainItems, ih, htu.1]

theorem samePlain_array {ts us : List Tree} (h : List.Forall₂ SamePlain ts us) :
    (array ts).SamePlain (array us) := by
  cases h with
  | nil => exact .refl _
  | @cons t u ts us htu hrest =>
    have hlist : (list (t :: ts)).plain = (list (u :: us)).plain := by
      rw [plain, plain, plainItems_eq (.cons htu hrest)]
    have hitem : SameEntry Marker.item (list (t :: ts)) (list (u :: us)) :=
      ⟨⟨hlist, rfl⟩, fun hk => absurd hk (by decide)⟩
    exact samePlain_map (.cons ⟨rfl, SameEntry.refl _ _⟩ (Entries.Aligned.singleton hitem))

end

end Tree

namespace Encoder

variable {e : Encoder} {o : Option ObjectType} {path : Path} {skipCase : Bool}
  {es fs : Entries Value} {own own' : Entries Tree}

/-- Where both are encoded, the trees are the same in plain text. -/
def Agrees (e : Encoder) (v w : Value) : Prop :=
  e.wireText? v = e.wireText? w ∧ ∀ schema verbatim path t u,
    e.encode v schema verbatim path = .ok t → e.encode w schema verbatim path = .ok u →
      t.SamePlain u

/-- A label is written plainly or verbatim. -/
theorem encode_label {v : Value} {text : String} {p : EntryPath} (hc : e.convention.SpellsNoScalar)
    (hp : e.convention.parse? text = some p) (hv : v.label? e.convention = some text)
    {schema : Option Schema} {verbatim : Bool} {t : Tree}
    (ht : e.encode v schema verbatim path = .ok t) : t = .text text ∨ t = .verbatim text := by
  cases v with
  | reference r =>
    rw [encode] at ht
    obtain rfl := Option.some.inj hv
    exact .inl (Except.ok.inj ht).symm
  | string s =>
    obtain rfl := Option.some.inj hv
    have hscalar : some (stringTree s verbatim) = some t :=
      encode_scalar (by simp [scalarTree]) ht
    obtain ⟨hnumber, hbool⟩ := hc s p hp
    obtain rfl := Option.some.inj hscalar
    unfold stringTree
    rw [hnumber, hbool]
    split
    · exact .inr rfl
    · exact .inl rfl
  | _ => cases hv

theorem agrees_label {v w : Value} {text : String} {p : EntryPath}
    (hc : e.convention.SpellsNoScalar) (hp : e.convention.parse? text = some p)
    (hv : v.label? e.convention = some text) (hw : w.label? e.convention = some text) :
    e.Agrees v w := by
  have hwire : ∀ {v : Value}, v.label? e.convention = some text → e.wireText? v = some text := by
    intro v hv
    cases v with
    | reference | string => exact hv
    | _ => cases hv
  refine ⟨(hwire hv).trans (hwire hw).symm, fun schema verbatim path t u ht hu => ?_⟩
  rcases encode_label hc hp hv ht with ht | ht <;> rcases encode_label hc hp hw hu with hu | hu <;>
    (rw [ht, hu]; exact ⟨rfl, rfl⟩)

/-- Fields on which the encoder agrees. -/
def AgreesOn (e : Encoder) (key : String) (v w : Value) : Prop :=
  e.Agrees v w ∧ (key = Marker.untypedCase → v.asString? = w.asString?)

theorem EncodesEntry.sameEntry {key : String} {v w : Value} {a b : String × Tree}
    (hvw : e.Agrees v w) (ha : EncodesEntry e o path (key, v) a)
    (hb : EncodesEntry e o path (key, w) b) : a.1 = b.1 ∧ Tree.SameEntry a.1 a.2 b.2 := by
  have hequal : EncodesEntry e o path (key, w) a → a.1 = b.1 ∧ Tree.SameEntry a.1 a.2 b.2 := by
    intro ha
    obtain rfl := ha.unique hb
    exact ⟨rfl, .refl _ _⟩
  cases ha with
  | attr hk ht plain => exact hequal (.attr hk (hvw.1 ▸ ht) plain)
  | text ht => exact hequal (.text (hvw.1 ▸ ht))
  | child hk ht =>
    obtain ⟨hattribute, htext, -, -⟩ := isFieldName_iff.1 hk
    cases hb with
    | attr hk' _ _ => cases hattribute.symm.trans hk'
    | text _ => exact absurd rfl htext
    | child _ hu =>
      refine ⟨rfl, hvw.2 _ _ _ _ _ ht hu, ?_⟩
      rintro (rfl | rfl) <;> exact absurd hk (by decide)

/-- Fields become entries that are the same in plain text. -/
theorem aligned_encodeFields (h : Entries.Aligned e.AgreesOn es fs)
    (hown : e.encodeFields skipCase es o path = .ok own)
    (hown' : e.encodeFields skipCase fs o path = .ok own') :
    Entries.Aligned Tree.SameEntry own own' := by
  have hfields : Entries.Aligned e.AgreesOn (ownFields skipCase es) (ownFields skipCase fs) :=
    h.filter fun key => !(skipCase && key == Marker.untypedCase)
  have hrel := encodeFields_eq_ok_iff.1 hown
  have hrel' := encodeFields_eq_ok_iff.1 hown'
  clear hown hown'
  revert hrel hrel'
  generalize ownFields skipCase es = gs, ownFields skipCase fs = hs at hfields
  intro hrel hrel'
  induction hfields generalizing own own' with
  | nil =>
    cases hrel
    cases hrel'
    exact .nil
  | @cons f g _ _ hfg _ ih =>
    obtain ⟨key, v⟩ := f
    obtain ⟨key', w⟩ := g
    obtain ⟨rfl, hvw⟩ := hfg
    cases hrel with
    | cons ha hrest =>
      cases hrel' with
      | cons hb hrest' => exact .cons (ha.sameEntry hvw.1 hb) (ih hrest hrest')

/-- What is filled in depends on the keys that are there. -/
theorem aligned_withMissing {R : String → Value → Value → Prop} (h : Entries.Aligned R es fs)
    (hown : Entries.Aligned Tree.SameEntry own own') {entries entries' : Entries Tree}
    (hentries : e.withMissing own es o path = .ok entries)
    (hentries' : e.withMissing own' fs o path = .ok entries') :
    Entries.Aligned Tree.SameEntry entries entries' := by
  unfold withMissing at hentries hentries'
  cases o with
  | none =>
    obtain rfl := pure_eq_ok_iff.1 hentries
    obtain rfl := pure_eq_ok_iff.1 hentries'
    exact hown
  | some o =>
    obtain ⟨filled, hfilled, hentries⟩ := bind_eq_ok_iff.1 hentries
    obtain ⟨filled', hfilled', hentries'⟩ := bind_eq_ok_iff.1 hentries'
    obtain rfl := pure_eq_ok_iff.1 hentries
    obtain rfl := pure_eq_ok_iff.1 hentries'
    rw [h.keys_eq, hfilled'] at hfilled
    obtain rfl := Except.ok.inj hfilled
    exact hown.extend (.refl Tree.SameEntry.refl _)

theorem untypedCase?_eq_of_aligned (h : Entries.Aligned e.AgreesOn es fs) (o : Option ObjectType) :
    untypedCase? es o = untypedCase? fs o := by
  have hget : (Entries.get? es Marker.untypedCase).bind Value.asString? =
      (Entries.get? fs Marker.untypedCase).bind Value.asString? := by
    match Entries.get? es Marker.untypedCase, Entries.get? fs Marker.untypedCase,
      h.lookup Marker.untypedCase with
    | _, _, .none => rfl
    | _, _, .some hvw => exact hvw.2 rfl
  unfold untypedCase?
  split
  · rfl
  · exact hget

theorem samePlain_finishCase (h : Entries.Aligned Tree.SameEntry own own') (case : String) :
    (finishCase case own).SamePlain (finishCase case own') :=
  Tree.samePlain_map (.extend (.refl Tree.SameEntry.refl _) h)

theorem samePlain_finishObject (h : Entries.Aligned Tree.SameEntry own own') (case : Option String)
    (o : Option ObjectType) (collapse : Bool) :
    (finishObject case o collapse own).SamePlain (finishObject case o collapse own') := by
  unfold finishObject
  split
  · exact samePlain_finishCase h _
  · exact Tree.samePlain_map (h.insert Marker.variant (.refl _ _))
  · rw [h.all_eq fun _ t u htu => htu.1.2]
    split
    · exact .refl _
    · exact Tree.samePlain_map h

/-- The elements of two objects whose entries are complete. -/
theorem samePlain_finished (h : Entries.Aligned e.AgreesOn es fs) {finish : Entries Tree → Tree}
    (hfinish : ∀ own own' : Entries Tree, Entries.Aligned Tree.SameEntry own own' →
      (finish own).SamePlain (finish own')) {t u : Tree}
    (ht : (e.encodeFields skipCase es o path >>= fun own =>
      e.withMissing own es o path >>= fun entries => pure (finish entries)) = .ok t)
    (hu : (e.encodeFields skipCase fs o path >>= fun own =>
      e.withMissing own fs o path >>= fun entries => pure (finish entries)) = .ok u) :
    t.SamePlain u := by
  obtain ⟨own, hown, ht⟩ := bind_eq_ok_iff.1 ht
  obtain ⟨entries, hentries, ht⟩ := bind_eq_ok_iff.1 ht
  obtain ⟨own', hown', hu⟩ := bind_eq_ok_iff.1 hu
  obtain ⟨entries', hentries', hu⟩ := bind_eq_ok_iff.1 hu
  obtain rfl := pure_eq_ok_iff.1 ht
  obtain rfl := pure_eq_ok_iff.1 hu
  exact hfinish _ _ (aligned_withMissing h (aligned_encodeFields h hown hown') hentries hentries')

/-- The elements of two objects that keep their case in a field. -/
theorem samePlain_body (h : Entries.Aligned e.AgreesOn es fs) {collapse : Bool} {t u : Tree}
    (ht : e.body o collapse es path = .ok t) (hu : e.body o collapse fs path = .ok u) :
    t.SamePlain u := by
  unfold body at ht hu
  rw [untypedCase?_eq_of_aligned h o] at ht
  exact samePlain_finished h (fun own own' hown => samePlain_finishObject hown _ o collapse) ht hu

/-- The payload of an explicit case. -/
theorem samePlain_encodePayload {case : String} {v w : Value} {entries entries' : Entries Tree}
    (hvw : v.SameSpelling e.convention w) (hfields : ∀ gs hs, v = .object gs → w = .object hs →
      v = w ∨ Entries.Aligned e.AgreesOn gs hs)
    (h : e.encodePayload [(case, v)] o path = .ok entries)
    (h' : e.encodePayload [(case, w)] o path = .ok entries') :
    (finishCase case entries).SamePlain (finishCase case entries') := by
  cases hvw with
  | refl =>
    obtain rfl := Except.ok.inj (h.symm.trans h')
    exact .refl _
  | label _ hv _ =>
    cases v with
    | reference | string => cases h
    | _ => cases hv
  | list => cases h
  | object length keys each case =>
    rcases hfields _ _ rfl rfl with heq | hfields
    · rw [heq, h'] at h
      obtain rfl := Except.ok.inj h
      exact .refl _
    · obtain ⟨own, hown, hentries⟩ := bind_eq_ok_iff.1 h
      obtain ⟨own', hown', hentries'⟩ := bind_eq_ok_iff.1 h'
      exact samePlain_finishCase (aligned_withMissing hfields
        (aligned_encodeFields hfields hown hown') hentries hentries') _

theorem samePlain_encodeItems {xs ys : List Value} (h : List.Forall₂ e.Agrees xs ys)
    {item : Option Schema} {i : Nat} {ts us : List Tree}
    (hts : e.encodeItems xs item path i = .ok ts) (hus : e.encodeItems ys item path i = .ok us) :
    List.Forall₂ Tree.SamePlain ts us := by
  induction h generalizing i ts us with
  | nil =>
    cases hts
    cases hus
    exact .nil
  | cons hvw _ ih =>
    rw [encodeItems] at hts hus
    obtain ⟨t, ht, hts⟩ := bind_eq_ok_iff.1 hts
    obtain ⟨ts, hmore, hts⟩ := bind_eq_ok_iff.1 hts
    obtain ⟨u, hu, hus⟩ := bind_eq_ok_iff.1 hus
    obtain ⟨us, hmore', hus⟩ := bind_eq_ok_iff.1 hus
    obtain rfl := pure_eq_ok_iff.1 hts
    obtain rfl := pure_eq_ok_iff.1 hus
    exact .cons (hvw.2 _ _ _ _ _ ht hu) (ih hmore hmore')

/-- A type without fields takes an object only where it has none, and then the null element. -/
theorem samePlain_blank (h : es.isEmpty = fs.isEmpty) {resolved : Resolved} {t u : Tree}
    (ht : (if es.isEmpty then .ok Tree.null else conflict path resolved (.object es)) = .ok t)
    (hu : (if fs.isEmpty then .ok Tree.null else conflict path resolved (.object fs)) = .ok u) :
    t.SamePlain u := by
  rw [h] at ht
  split at ht
  · next hnil =>
    rw [if_pos hnil] at hu
    obtain rfl := Except.ok.inj (ht.symm.trans hu)
    exact .refl _
  · cases ht

/-- Objects under a variant name the same case, and imply the same one where they name none. -/
theorem samePlain_encode_variant (h : Entries.Aligned e.AgreesOn es fs)
    (hpayload : ∀ key v w, es = [(key, v)] → fs = [(key, w)] → v.SameSpelling e.convention w ∧
      ∀ gs hs, v = .object gs → w = .object hs → v = w ∨ Entries.Aligned e.AgreesOn gs hs)
    {schema : Option Schema} {verbatim : Bool} {v : VariantType}
    (hs : schema.map e.registry.resolve = some (.variant v)) {t u : Tree}
    (ht : e.encode (.object es) schema verbatim path = .ok t)
    (hu : e.encode (.object fs) schema verbatim path = .ok u) : t.SamePlain u := by
  have hempty : es.isEmpty = fs.isEmpty := by cases h <;> rfl
  rw [encode, hs] at ht hu
  simp only at ht hu
  rw [hempty] at ht
  split at ht
  · next hnil =>
    rw [if_pos hnil] at hu
    obtain rfl := Except.ok.inj (ht.symm.trans hu)
    exact .refl _
  · next hnil =>
    rw [if_neg hnil] at hu
    split at ht
    · next case s hc =>
      obtain ⟨hinline, hcase, payload, rfl⟩ := explicitCase?_eq_some_iff.1 hc
      obtain ⟨w, rfl⟩ := h.eq_singleton
      rw [explicitCase?_eq_some_iff.2 ⟨hinline, hcase, w, rfl⟩] at hu
      obtain ⟨entries, hentries, ht⟩ := bind_eq_ok_iff.1 ht
      obtain ⟨entries', hentries', hu⟩ := bind_eq_ok_iff.1 hu
      obtain rfl := pure_eq_ok_iff.1 ht
      obtain rfl := pure_eq_ok_iff.1 hu
      obtain ⟨hvw, hfields⟩ := hpayload case payload w rfl rfl
      exact samePlain_encodePayload hvw hfields hentries hentries'
    · next hc =>
      have hc' : explicitCase? v fs = none := by
        refine explicitCase?_eq_none_of_single (fun case w hfs => ?_) hc
        subst hfs
        exact h.flip.eq_singleton
      rw [hc'] at hu
      obtain ⟨⟨case, s⟩, hs, ht⟩ := bind_eq_ok_iff.1 ht
      obtain ⟨⟨case', s'⟩, hs', hu⟩ := bind_eq_ok_iff.1 hu
      rw [impliedCase_eq_ok_iff] at hs hs'
      obtain ⟨rfl, rfl⟩ := Prod.mk.inj (Option.some.inj (hs.symm.trans hs'))
      exact samePlain_finished h (fun own own' hown => samePlain_finishCase hown case) ht hu

theorem samePlain_encode_object (h : Entries.Aligned e.AgreesOn es fs)
    (hpayload : ∀ key v w, es = [(key, v)] → fs = [(key, w)] → v.SameSpelling e.convention w ∧
      ∀ gs hs, v = .object gs → w = .object hs → v = w ∨ Entries.Aligned e.AgreesOn gs hs)
    {schema : Option Schema} {verbatim : Bool} {t u : Tree}
    (ht : e.encode (.object es) schema verbatim path = .ok t)
    (hu : e.encode (.object fs) schema verbatim path = .ok u) : t.SamePlain u := by
  have hempty : es.isEmpty = fs.isEmpty := by cases h <;> rfl
  cases hs : schema.map e.registry.resolve with
  | none =>
    rw [encode, hs] at ht hu
    exact samePlain_body (o := none) h ht hu
  | some resolved =>
    cases resolved with
    | variant v => exact samePlain_encode_variant h hpayload hs ht hu
    | object o =>
      rw [encode, hs] at ht hu
      exact samePlain_body (o := some o) h ht hu
    | primitive kind =>
      rw [encode, hs] at ht hu
      cases kind with
      | unknown => exact samePlain_body (o := none) h ht hu
      | _ => exact samePlain_blank hempty ht hu
    | list item =>
      rw [encode, hs] at ht hu
      exact samePlain_blank hempty ht hu

/-- The encoder agrees on values that are spelt the same, and on the fields of such objects. -/
theorem agrees_and_fields (hc : e.convention.SpellsNoScalar) {v w : Value}
    (h : v.SameSpelling e.convention w) : e.Agrees v w ∧ ∀ gs hs, v = .object gs → w = .object hs →
      v = w ∨ Entries.Aligned e.AgreesOn gs hs := by
  -- As payloads are encoded field by field, the induction carries the fields of objects.
  induction h with
  | refl v =>
    refine ⟨⟨rfl, fun schema verbatim path t u ht hu => ?_⟩, fun _ _ _ _ => .inl rfl⟩
    obtain rfl := Except.ok.inj (ht.symm.trans hu)
    exact .refl t
  | label hp hv hw =>
    refine ⟨agrees_label hc hp hv hw, fun gs hs hgs _ => ?_⟩
    subst hgs
    cases hv
  | @list xs ys length each ih =>
    refine ⟨⟨rfl, fun schema verbatim path t u ht hu => ?_⟩, fun _ _ hv => nomatch hv⟩
    obtain ⟨item, ts, hitem, hts, rfl⟩ := encode_list_eq_ok_iff.1 ht
    obtain ⟨item', us, hitem', hus, rfl⟩ := encode_list_eq_ok_iff.1 hu
    obtain rfl := Option.some.inj (hitem.symm.trans hitem')
    have hitems : List.Forall₂ e.Agrees xs ys :=
      List.forall₂_iff_zip.2 ⟨length, fun hm => (ih _ _ hm).1⟩
    exact Tree.samePlain_array (samePlain_encodeItems hitems hts hus)
  | @object es fs length keys each case ih =>
    have hfields : Entries.Aligned e.AgreesOn es fs := List.forall₂_iff_zip.2
      ⟨length, fun hm => ⟨keys _ _ hm, (ih _ _ hm).1, case _ _ hm⟩⟩
    refine ⟨⟨rfl, fun schema verbatim path t u ht hu => ?_⟩, fun gs hs hgs hhs => .inr ?_⟩
    · refine samePlain_encode_object hfields (fun key v w hes hfs => ?_) ht hu
      have hm : ((key, v), (key, w)) ∈ es.zip fs := by simp [hes, hfs]
      exact ⟨each _ _ hm, (ih _ _ hm).2⟩
    · obtain rfl := Value.object.inj hgs
      obtain rfl := Value.object.inj hhs
      exact hfields

/-- The content of the root element. -/
theorem samePlain_encodeRoot (hc : e.convention.SpellsNoScalar) {v w : Value}
    (h : v.SameSpelling e.convention w) {schema : Schema} {t u : Tree}
    (ht : e.encodeRoot v schema = .ok t) (hu : e.encodeRoot w schema = .ok u) : t.SamePlain u := by
  obtain ⟨hagrees, hfields⟩ := agrees_and_fields hc h
  have hencode : ∀ {v : Value} {text : String}, v.label? e.convention = some text →
      e.encodeRoot v schema = e.encode v (some schema) false .root := by
    intro v text hv
    cases v with
    | reference | string => rfl
    | _ => cases hv
  cases h with
  | refl =>
    obtain rfl := Except.ok.inj (ht.symm.trans hu)
    exact .refl t
  | label _ hv hw =>
    rw [hencode hv] at ht
    rw [hencode hw] at hu
    exact hagrees.2 _ _ _ _ _ ht hu
  | list => exact hagrees.2 (some schema) false .root _ _ ht hu
  | @object es fs length keys each case =>
    rcases hfields es fs rfl rfl with heq | hfields
    · rw [heq, hu] at ht
      obtain rfl := Except.ok.inj ht
      exact .refl _
    · rcases e.encodeRoot_object schema with ⟨o, -, hbody⟩ | ⟨-, hencode⟩
      · rw [hbody] at ht hu
        exact samePlain_body hfields ht hu
      · rw [hencode] at ht hu
        exact hagrees.2 _ _ _ _ _ ht hu

end Encoder

/-! ## Whole definitions -/

namespace Profile

theorem lacks_documentRoot {name : String} {document root : Tree} (h : document.lacks name = true)
    (hroot : documentRoot document = .ok root) : root.lacks name = true := by
  unfold documentRoot at hroot
  split at hroot
  · cases hroot
  · next top htop =>
    cases document with
    | map entries =>
      obtain rfl : entries = top := Option.some.inj htop
      split at hroot
      · cases hroot
      · next root' hget =>
        split at hroot
        · obtain rfl := Except.ok.inj hroot
          exact (Tree.entriesLack_iff.1 h _ _ (Entries.mem_of_get?_eq_some hget)).2
        · cases hroot
      · cases hroot
    | _ => cases htop

/-- What a text without elements named `xmlType` is decoded as against one store or another is
encoded as the same tree, wherever both are encoded, once verbatim text is read as plain text. -/
theorem plain_encodeTree_eq (registry : Registry) (settings : Settings) {kind text : String}
    (htext : ∀ token ∈ Markup.Token.ofDocument text, token.opens Marker.untypedCase = false)
    (store₁ store₂ : Store) {v₁ v₂ : Decoded}
    (h₁ : decode ⟨registry, .standard, settings⟩ store₁ kind text = .ok v₁)
    (h₂ : decode ⟨registry, .standard, settings⟩ store₂ kind text = .ok v₂) {t₁ t₂ : Tree}
    (ht₁ : encodeTree ⟨registry, .standard, settings⟩ kind v₁.value = .ok t₁)
    (ht₂ : encodeTree ⟨registry, .standard, settings⟩ kind v₂.value = .ok t₂) :
    t₁.plain = t₂.plain := by
  obtain ⟨schema, document, root, hschema, -, hread, hroot, rfl⟩ := decode_eq_ok_iff.1 h₁
  obtain ⟨_, _, _, hschema', -, hread', hroot', rfl⟩ := decode_eq_ok_iff.1 h₂
  obtain rfl := Option.some.inj (hschema.symm.trans hschema')
  obtain rfl := Except.ok.inj (hread.symm.trans hread')
  obtain rfl := Except.ok.inj (hroot.symm.trans hroot')
  have hlacks : root.lacks Marker.untypedCase = true :=
    lacks_documentRoot (Markup.lacks_of_read (by decide) (by decide) htext hread) hroot
  obtain ⟨s₁, u₁, hs₁, hu₁, rfl⟩ := encodeTree_eq_ok_iff.1 ht₁
  obtain ⟨s₂, u₂, hs₂, hu₂, rfl⟩ := encodeTree_eq_ok_iff.1 ht₂
  obtain rfl := Option.some.inj (hs₁.symm.trans hs₂)
  have hvalues : Value.SameSpelling .standard (decodeRoot ⟨registry, .standard, settings⟩ store₁
      schema root).value (decodeRoot ⟨registry, .standard, settings⟩ store₂ schema root).value :=
    Decoder.sameSpelling_decodeDocument Convention.standard_spellsNoScalar
      (Convention.faithful_resolveAll _ _ _) (Convention.faithful_resolveAll _ _ _) root hlacks
      schema
  have hconvention : (Encoder.ofRegistry registry .standard).convention.SpellsNoScalar :=
    Convention.standard_spellsNoScalar
  have hroots : u₁.SamePlain u₂ := Encoder.samePlain_encodeRoot hconvention hvalues hu₁ hu₂
  have hdocument : Tree.SameEntry Marker.root u₁ u₂ :=
    ⟨hroots, fun hk => absurd hk (by decide)⟩
  exact (Tree.samePlain_map (Entries.Aligned.singleton hdocument)).1

/-- A chart whose definition is the label of an entry. -/
def labelledChart : String := "<root><charts type=\"array\"><_ITEM_><_T_>chart</_T_>
  <definition>custcollectiontranslations_a.b</definition></_ITEM_></charts></root>"

/-- A store that holds the entry. -/
def chartLabels : Store :=
  Store.empty.insert (Convention.standard.collection "custcollectiontranslations_a" ["b"])

theorem plain_encodeTree_eq_chart :
    ∃ v₁ v₂ t₁ t₂, decode {} .empty "workbook" labelledChart = .ok v₁ ∧
      decode {} chartLabels "workbook" labelledChart = .ok v₂ ∧
      encodeTree {} "workbook" v₁.value = .ok t₁ ∧ encodeTree {} "workbook" v₂.value = .ok t₂ ∧
      v₁.value.same v₂.value = false ∧ t₁.plain = t₂.plain := by
  have htext : ∀ token ∈ Markup.Token.ofDocument labelledChart,
      token.opens Marker.untypedCase = false := by decide +kernel
  have hcheck : ((decode {} .empty "workbook" labelledChart).toOption.any fun v₁ =>
      (decode {} chartLabels "workbook" labelledChart).toOption.any fun v₂ =>
        (encodeTree {} "workbook" v₁.value).toOption.isSome &&
          (encodeTree {} "workbook" v₂.value).toOption.isSome && !v₁.value.same v₂.value) =
      true := by
    decide +kernel
  obtain ⟨v₁, hv₁, hcheck⟩ := (Option.any_eq_true _ _).1 hcheck
  obtain ⟨v₂, hv₂, hcheck⟩ := (Option.any_eq_true _ _).1 hcheck
  rw [Bool.and_eq_true, Bool.and_eq_true, Bool.not_eq_true'] at hcheck
  obtain ⟨⟨ht₁, ht₂⟩, hdiffer⟩ := hcheck
  obtain ⟨t₁, ht₁⟩ := Option.isSome_iff_exists.1 ht₁
  obtain ⟨t₂, ht₂⟩ := Option.isSome_iff_exists.1 ht₂
  rw [← Encoder.eq_ok_iff_toOption] at hv₁ hv₂ ht₁ ht₂
  exact ⟨v₁, v₂, t₁, t₂, hv₁, hv₂, ht₁, ht₂, hdiffer,
    plain_encodeTree_eq _ {} htext .empty chartLabels hv₁ hv₂ ht₁ ht₂⟩

end Profile

end TaggedMarkup
