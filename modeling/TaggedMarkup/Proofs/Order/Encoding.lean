import TaggedMarkup.Proofs.Cycle.Settled
import TaggedMarkup.Proofs.Order.Reordered
/-!
# Encoding in another order

A value and one with its fields in another order are encoded alike: as trees that differ in the
order of their entries, or not at all. Entries of an object are laid one by one, those filled in
depend on the keys that are there, and a case marker or a collapse looks at all entries at once.
Nothing is asked of the registry, whose types may declare any names.
-/
namespace TaggedMarkup

open Encoder

namespace Encoder

variable {e : Encoder} {o : Option ObjectType} {path : Path} {skipCase : Bool}
  {es fs : Entries Value} {own own' : Entries Tree}

/-- Where the one is encoded under the schema, the other is encoded as the same tree up to order. -/
def Leads (e : Encoder) (schema : Option Schema) (v w : Value) : Prop :=
  e.wireText? v = e.wireText? w ∧ ∀ verbatim path t, e.encode v schema verbatim path = .ok t →
    ∃ u, e.encode w schema verbatim path = .ok u ∧ t.Reordered u

/-- Wherever the one is encoded, the other is encoded as the same tree up to order. -/
def Matches (e : Encoder) (v w : Value) : Prop :=
  e.wireText? v = e.wireText? w ∧ ∀ schema verbatim path t,
    e.encode v schema verbatim path = .ok t →
      ∃ u, e.encode w schema verbatim path = .ok u ∧ t.Reordered u

theorem Leads.refl (e : Encoder) (schema : Option Schema) (v : Value) : e.Leads schema v v :=
  ⟨rfl, fun _ _ t ht => ⟨t, ht, .refl t⟩⟩

theorem Matches.leads {v w : Value} (h : e.Matches v w) (schema : Option Schema) :
    e.Leads schema v w := ⟨h.1, h.2 schema⟩

theorem EncodesEntry.exists_match {key : String} {v w : Value} {a : String × Tree}
    (hvw : e.Leads ((declared? o key).map Field.schema) v w)
    (h : EncodesEntry e o path (key, v) a) :
    ∃ t, EncodesEntry e o path (key, w) (a.1, t) ∧ a.2.Reordered t := by
  cases h with
  | attr hk ht plain => exact ⟨_, .attr hk (hvw.1 ▸ ht) plain, .refl _⟩
  | text ht => exact ⟨_, .text (hvw.1 ▸ ht), .refl _⟩
  | child hk ht =>
    obtain ⟨u, hu, htu⟩ := hvw.2 _ _ _ ht
    exact ⟨u, .child hk hu, htu⟩

/-- Fields with the same keys become entries in any order, if each leads to its counterpart. -/
theorem exists_encodeFields_of_leads {R : Value → Value → Prop} (h : Entries.Reordered R es fs)
    (heach : ∀ key v w, (key, v) ∈ es → (key, w) ∈ fs →
      e.Leads ((declared? o key).map Field.schema) v w)
    (hown : e.encodeFields skipCase es o path = .ok own) :
    ∃ own', e.encodeFields skipCase fs o path = .ok own' ∧
      Entries.Reordered Tree.Reordered own own' := by
  have hfields : Entries.Reordered R (ownFields skipCase es) (ownFields skipCase fs) :=
    h.filter fun key => !(skipCase && key == Marker.untypedCase)
  have hleads : ∀ key v w, (key, v) ∈ ownFields skipCase es → (key, w) ∈ ownFields skipCase fs →
      e.Leads ((declared? o key).map Field.schema) v w := fun key v w hv hw =>
    heach key v w (List.mem_of_mem_filter hv) (List.mem_of_mem_filter hw)
  have hrel := encodeFields_eq_ok_iff.1 hown
  have hentry : ∀ f ∈ ownFields skipCase fs, ∃ b, EncodesEntry e o path f b ∧
      ∃ t, (b.1, t) ∈ own ∧ t.Reordered b.2 := by
    rintro ⟨key, w⟩ hw
    obtain ⟨v, hv⟩ := Entries.exists_of_mem_keys
      (hfields.keys.mem_iff.2 (Entries.mem_keys_of_mem hw))
    obtain ⟨⟨k, t⟩, ha, hencodes⟩ := mem_of_forall₂_left hrel hv
    obtain ⟨u, hu, htu⟩ := hencodes.exists_match (hleads key v w hv hw)
    exact ⟨(k, u), hu, t, ha, htu⟩
  -- The new entries follow the order of `fs`; only their keys lead back to those of `es`.
  obtain ⟨own', hown'⟩ := exists_forall₂ hentry
  have hencodes : List.Forall₂ (EncodesEntry e o path) (ownFields skipCase fs) own' :=
    hown'.imp fun f b hb => hb.1
  have hd := distinct_of_encodesEntry hrel hfields.distinct
  have hd' := distinct_of_encodesEntry hencodes hfields.distinct_right
  have hback : ∀ key u, (key, u) ∈ own' → ∃ t, (key, t) ∈ own ∧ t.Reordered u := by
    intro key u hu
    obtain ⟨f, -, -, t, ht, htu⟩ := mem_of_forall₂_right hown' hu
    exact ⟨t, ht, htu⟩
  refine ⟨own', encodeFields_eq_ok_iff.2 hencodes, hd,
    (List.perm_ext_iff_of_nodup hd hd').2 fun key => ⟨fun hk => ?_, fun hk => ?_⟩,
    fun key t u ht hu => ?_⟩
  · obtain ⟨t, ht⟩ := Entries.exists_of_mem_keys hk
    obtain ⟨⟨name, v⟩, hv, hencoded⟩ := mem_of_forall₂_right hrel ht
    obtain ⟨w, hw, -⟩ := hfields.exists_of_mem hv
    obtain ⟨u, hu, -⟩ := hencoded.exists_match (hleads name v w hv hw)
    obtain ⟨b, hb, hencoded'⟩ := mem_of_forall₂_left hencodes hw
    obtain rfl := hu.unique hencoded'
    exact Entries.mem_keys_of_mem hb
  · obtain ⟨u, hu⟩ := Entries.exists_of_mem_keys hk
    obtain ⟨t, ht, -⟩ := hback key u hu
    exact Entries.mem_keys_of_mem ht
  · obtain ⟨t', ht', htu⟩ := hback key u hu
    have hget := (Entries.get?_eq_some_iff hd).2 ht
    rw [(Entries.get?_eq_some_iff hd).2 ht'] at hget
    exact Option.some.inj hget ▸ htu

/-- The fields of an object become entries in any order. -/
theorem exists_encodeFields (h : Entries.Reordered e.Matches es fs)
    (hown : e.encodeFields skipCase es o path = .ok own) :
    ∃ own', e.encodeFields skipCase fs o path = .ok own' ∧
      Entries.Reordered Tree.Reordered own own' :=
  exists_encodeFields_of_leads h (fun key v w hv hw => (h.each key v w hv hw).leads _) hown

/-- What is filled in depends on the keys that are there and not on their order. -/
theorem exists_withMissing {R : Value → Value → Prop} (h : Entries.Reordered R es fs)
    (hown : Entries.Reordered Tree.Reordered own own') {entries : Entries Tree}
    (hentries : e.withMissing own es o path = .ok entries) :
    ∃ entries', e.withMissing own' fs o path = .ok entries' ∧
      Entries.Reordered Tree.Reordered entries entries' := by
  obtain ⟨filled, hfilled, rfl⟩ := withMissing_eq_ok_iff.1 hentries
  have hmissing : missingFields o es.keys = missingFields o fs.keys := by
    unfold missingFields
    simp only [h.keys.mem_iff]
  rw [hmissing] at hfilled
  exact ⟨_, withMissing_eq_ok_iff.2 ⟨filled, hfilled, rfl⟩, hown.extend Tree.Reordered.refl filled⟩

theorem untypedCase?_eq_of_reordered (h : Entries.Reordered Value.Reordered es fs)
    (o : Option ObjectType) : untypedCase? es o = untypedCase? fs o := by
  have hget : (Entries.get? es Marker.untypedCase).bind Value.asString? =
      (Entries.get? fs Marker.untypedCase).bind Value.asString? := by
    match Entries.get? es Marker.untypedCase, Entries.get? fs Marker.untypedCase,
      h.lookup Marker.untypedCase with
    | _, _, .none => rfl
    | _, _, .some hvw => exact hvw.asString?_eq
  unfold untypedCase?
  split
  · rfl
  · exact hget

theorem finishCase_of_reordered (h : Entries.Reordered Tree.Reordered own own') (case : String) :
    (finishCase case own).Reordered (finishCase case own') :=
  .of_entries (h.extend_right (List.nodup_singleton _) .refl)

theorem finishObject_of_reordered (h : Entries.Reordered Tree.Reordered own own')
    (case : Option String) (o : Option ObjectType) (collapse : Bool) :
    (finishObject case o collapse own).Reordered (finishObject case o collapse own') := by
  unfold finishObject
  split
  · exact finishCase_of_reordered h _
  · exact .of_entries (h.insert Marker.variant (.refl _))
  · rw [h.all_eq fun t u htu => htu.isPlaceholder_eq]
    split
    · exact .refl _
    · exact .of_entries h

/-- The element of an object whose entries are complete. -/
theorem exists_finished_of_reordered (h : Entries.Reordered e.Matches es fs)
    {finish : Entries Tree → Tree} (hfinish : ∀ own own' : Entries Tree,
      Entries.Reordered Tree.Reordered own own' → (finish own).Reordered (finish own'))
    {t : Tree} (ht : (e.encodeFields skipCase es o path >>= fun own =>
      e.withMissing own es o path >>= fun entries => pure (finish entries)) = .ok t) :
    ∃ u, (e.encodeFields skipCase fs o path >>= fun own =>
      e.withMissing own fs o path >>= fun entries => pure (finish entries)) = .ok u ∧
        t.Reordered u := by
  obtain ⟨own, hown, ht⟩ := bind_eq_ok_iff.1 ht
  obtain ⟨entries, hentries, ht⟩ := bind_eq_ok_iff.1 ht
  obtain rfl := pure_eq_ok_iff.1 ht
  obtain ⟨own', hown', hrel⟩ := exists_encodeFields h hown
  obtain ⟨entries', hentries', hrel⟩ := exists_withMissing h hrel hentries
  exact ⟨_, bind_eq_ok_iff.2 ⟨own', hown', bind_eq_ok_iff.2 ⟨entries', hentries', rfl⟩⟩,
    hfinish _ _ hrel⟩

/-- The element of an object that keeps its case in a field. -/
theorem exists_body (h : Entries.Reordered Value.Reordered es fs)
    (hfields : Entries.Reordered e.Matches es fs) {collapse : Bool} {t : Tree}
    (ht : e.body o collapse es path = .ok t) :
    ∃ u, e.body o collapse fs path = .ok u ∧ t.Reordered u := by
  unfold body at ht ⊢
  rw [← untypedCase?_eq_of_reordered h o]
  exact exists_finished_of_reordered hfields (fun own own' hrel =>
    finishObject_of_reordered hrel _ o collapse) ht

/-- The payload of an explicit case. -/
theorem exists_encodePayload {case : String} {v w : Value} {entries : Entries Tree}
    (hvw : v.Reordered w) (hfields : ∀ gs hs, v = .object gs → w = .object hs →
      v = w ∨ Entries.Reordered e.Matches gs hs)
    (h : e.encodePayload [(case, v)] o path = .ok entries) :
    ∃ entries', e.encodePayload [(case, w)] o path = .ok entries' ∧
      (v = w ∧ entries = entries' ∨ Entries.Reordered Tree.Reordered entries entries') := by
  cases hvw with
  | refl => exact ⟨entries, h, .inl ⟨rfl, rfl⟩⟩
  | list => cases h
  | object distinct keys each =>
    rcases hfields _ _ rfl rfl with heq | hfields
    · obtain rfl := Value.object.inj heq
      exact ⟨entries, h, .inl ⟨rfl, rfl⟩⟩
    · obtain ⟨own, hown, hentries⟩ := bind_eq_ok_iff.1 h
      obtain ⟨own', hown', hrel⟩ := exists_encodeFields hfields hown
      obtain ⟨entries', hentries', hrel⟩ := exists_withMissing hfields hrel hentries
      exact ⟨entries', bind_eq_ok_iff.2 ⟨own', hown', hentries'⟩, .inr hrel⟩

theorem reordered_array {ts us : List Tree} (h : List.Forall₂ Tree.Reordered ts us) :
    (Tree.array ts).Reordered (.array us) := by
  cases h with
  | nil => exact .refl _
  | cons ht hrest =>
    have hkind : Entries.Reordered Tree.Reordered [(Marker.kind, .text Kind.array.text)]
        [(Marker.kind, .text Kind.array.text)] := .singleton (.refl _)
    exact .of_entries (hkind.insert Marker.item (.of_items (.cons ht hrest)))

theorem exists_encodeItems_of_forall₂ {xs ys : List Value} {item : Option Schema}
    (h : List.Forall₂ (e.Leads item) xs ys) {i : Nat} {ts : List Tree}
    (hts : e.encodeItems xs item path i = .ok ts) :
    ∃ us, e.encodeItems ys item path i = .ok us ∧ List.Forall₂ Tree.Reordered ts us := by
  induction h generalizing i ts with
  | nil =>
    cases hts
    exact ⟨[], rfl, .nil⟩
  | cons hvw _ ih =>
    rw [encodeItems] at hts
    obtain ⟨t, ht, hts⟩ := bind_eq_ok_iff.1 hts
    obtain ⟨more, hmore, hts⟩ := bind_eq_ok_iff.1 hts
    obtain rfl := pure_eq_ok_iff.1 hts
    obtain ⟨u, hu, htu⟩ := hvw.2 _ _ _ ht
    obtain ⟨us, hus, hrel⟩ := ih hmore
    refine ⟨u :: us, ?_, .cons htu hrel⟩
    rw [encodeItems]
    exact bind_eq_ok_iff.2 ⟨u, hu, bind_eq_ok_iff.2 ⟨us, hus, rfl⟩⟩

/-- Lists whose items lead to each other where the items of a list stand. -/
theorem leads_list {xs ys : List Value} {schema : Option Schema}
    (h : ∀ item, itemType? (schema.map e.registry.resolve) = some item →
      List.Forall₂ (e.Leads item) xs ys) : e.Leads schema (.list xs) (.list ys) := by
  refine ⟨rfl, fun verbatim path t ht => ?_⟩
  obtain ⟨item, ts, hitem, hts, rfl⟩ := encode_list_eq_ok_iff.1 ht
  obtain ⟨us, hus, hrel⟩ := exists_encodeItems_of_forall₂ (h item hitem) hts
  exact ⟨.array us, encode_list_eq_ok_iff.2 ⟨item, us, hitem, hus, rfl⟩, reordered_array hrel⟩

theorem explicitCase?_eq_none_of_reordered {v : VariantType}
    (h : Entries.Reordered Value.Reordered es fs) (hc : explicitCase? v es = none) :
    explicitCase? v fs = none := by
  refine explicitCase?_eq_none_of_single (fun case w hfs => ?_) hc
  subst hfs
  obtain ⟨payload, hes, -⟩ := (h.symm fun _ _ hvw => hvw.symm).eq_singleton
  exact ⟨payload, hes⟩

/-- An object is encoded in any order of its fields. -/
theorem exists_encode_object (h : Entries.Reordered Value.Reordered es fs)
    (hfields : Entries.Reordered e.Matches es fs) (hpayload : ∀ key v w, (key, v) ∈ es →
      (key, w) ∈ fs → ∀ gs hs, v = .object gs → w = .object hs →
        v = w ∨ Entries.Reordered e.Matches gs hs)
    {schema : Option Schema} {verbatim : Bool} {t : Tree}
    (ht : e.encode (.object es) schema verbatim path = .ok t) :
    ∃ u, e.encode (.object fs) schema verbatim path = .ok u ∧ t.Reordered u := by
  have hempty : es.isEmpty = fs.isEmpty := h.isEmpty_eq
  rw [encode] at ht ⊢
  split at ht
  · exact exists_body h hfields (o := none) ht
  · exact exists_body h hfields (o := none) ht
  · next o hs => exact exists_body h hfields (o := some o) ht
  · next v hs =>
    rw [hempty] at ht
    split at ht
    · next hnil =>
      rw [if_pos hnil]
      exact ⟨t, ht, .refl t⟩
    · next hnil =>
      rw [if_neg hnil]
      split at ht
      · next case s hc =>
        obtain ⟨hinline, hcase, payload, rfl⟩ := explicitCase?_eq_some_iff.1 hc
        obtain ⟨w, rfl, hvw⟩ := h.eq_singleton
        rw [explicitCase?_eq_some_iff.2 ⟨hinline, hcase, w, rfl⟩]
        obtain ⟨entries, hentries, ht⟩ := bind_eq_ok_iff.1 ht
        obtain rfl := pure_eq_ok_iff.1 ht
        obtain ⟨entries', hentries', hrel⟩ := exists_encodePayload hvw
          (hpayload case payload w (List.mem_singleton_self _) (List.mem_singleton_self _)) hentries
        refine ⟨_, bind_eq_ok_iff.2 ⟨entries', hentries', rfl⟩, ?_⟩
        rcases hrel with ⟨-, rfl⟩ | hrel
        · exact .refl _
        · exact finishCase_of_reordered hrel case
      · next hc =>
        obtain ⟨⟨case, s⟩, hs, ht⟩ := bind_eq_ok_iff.1 ht
        rw [explicitCase?_eq_none_of_reordered h hc]
        obtain ⟨u, hu, htu⟩ := exists_finished_of_reordered hfields
          (fun own own' hrel => finishCase_of_reordered hrel case) ht
        have hs' : impliedCase v fs path = .ok (case, s) :=
          impliedCase_eq_ok_iff.2 (impliedCase_eq_ok_iff.1 hs)
        exact ⟨u, bind_eq_ok_iff.2 ⟨(case, s), hs', hu⟩, htu⟩
  · next other _ _ _ _ hs =>
    rw [hempty] at ht
    split at ht
    · next hnil =>
      rw [if_pos hnil]
      exact ⟨t, ht, .refl t⟩
    · cases ht

/-- The values of two objects match, and so do the fields of these objects. -/
theorem matches_and_fields_of_reordered {v w : Value} (h : v.Reordered w) (e : Encoder) :
    e.Matches v w ∧ ∀ gs hs, v = .object gs → w = .object hs →
      v = w ∨ Entries.Reordered e.Matches gs hs := by
  -- The payload of a case is encoded field by field, never as a value, so the induction carries
  -- the fields as well.
  induction h with
  | refl v =>
    exact ⟨⟨rfl, fun _ _ _ t ht => ⟨t, ht, .refl t⟩⟩, fun _ _ _ _ => .inl rfl⟩
  | @list xs ys length each ih =>
    exact ⟨⟨rfl, fun schema => (leads_list fun item _ => List.forall₂_iff_zip.2
      ⟨length, fun hm => (ih _ _ hm).1.leads item⟩).2⟩, fun _ _ hv => nomatch hv⟩
  | @object es fs distinct keys each ih =>
    have hfields : Entries.Reordered e.Matches es fs :=
      ⟨distinct, keys, fun key v w hv hw => (ih key v w hv hw).1⟩
    refine ⟨⟨rfl, fun schema verbatim path t ht => ?_⟩, fun gs hs hgs hhs => .inr ?_⟩
    · exact exists_encode_object ⟨distinct, keys, each⟩ hfields
        (fun key v w hv hw => (ih key v w hv hw).2) ht
    · obtain rfl := Value.object.inj hgs
      obtain rfl := Value.object.inj hhs
      exact hfields

/-- The content of the root element. -/
theorem exists_encodeRoot {v w : Value} (h : v.Reordered w) {schema : Schema} {t : Tree}
    (ht : e.encodeRoot v schema = .ok t) :
    ∃ u, e.encodeRoot w schema = .ok u ∧ t.Reordered u := by
  have hmatches := matches_and_fields_of_reordered h e
  cases h with
  | refl => exact ⟨t, ht, .refl t⟩
  | list => exact hmatches.1.2 (some schema) false .root t ht
  | @object es fs distinct keys each =>
    rcases hmatches.2 es fs rfl rfl with heq | hfields
    · obtain rfl := Value.object.inj heq
      exact ⟨t, ht, .refl t⟩
    · rcases e.encodeRoot_object schema with ⟨o, -, hbody⟩ | ⟨-, hencode⟩
      · rw [hbody] at ht ⊢
        exact exists_body ⟨distinct, keys, each⟩ hfields ht
      · rw [hencode] at ht ⊢
        exact hmatches.1.2 _ _ _ t ht

end Encoder

end TaggedMarkup
