import TaggedMarkup.Proofs.Decoding.Composed
import TaggedMarkup.Proofs.Deployment
/-!
# Definitions beside the fields of an artifact

Unpacking lets the fields of a definition win over those of the artifact, and over the removal of its
text; only a name is held back. The artifact keeps what it had if and only if no field of the
definition is in the way.
-/
namespace TaggedMarkup

open Deployment Encoder

namespace Deployment

variable {a b : Artifact} {decoded : Entries Value}

/-- The artifact keeps all it has but the text of its definition, and gains all that the definition
has but the name. -/
structure Lifted (a : Artifact) (decoded : Entries Value) (b : Artifact) : Prop where
  kept : ∀ key, key ≠ definition → ∀ v, a.field? key = some v → b.field? key = some v
  removed : b.field? definition = none
  gained : ∀ key, key ≠ definition → a.field? key = none →
    b.field? key = if key = name then none else decoded.get? key

/-- A field of the definition has the key of its text, or of a field that the artifact has. -/
def Collides (a : Artifact) (decoded : Entries Value) : Prop :=
  ∃ key v, key ≠ name ∧ decoded.get? key = some v ∧
    (key = definition ∨ ∃ w, a.field? key = some w ∧ w ≠ v)

theorem lifted_iff (h : ∀ key, b.field? key = (if key = name then none else decoded.get? key).or
    (if key = definition then none else a.field? key)) :
    Lifted a decoded b ↔ ¬ Collides a decoded := by
  constructor
  · rintro hlifted ⟨key, v, hname, hv, hcollides⟩
    have hb : b.field? key = some v := by rw [h, if_neg hname, hv, Option.some_or]
    rcases hcollides with rfl | ⟨w, hw, hne⟩
    · cases hlifted.removed.symm.trans hb
    · by_cases hdefinition : key = definition
      · cases (hdefinition ▸ hlifted.removed).symm.trans hb
      · exact hne (Option.some.inj ((hlifted.kept key hdefinition w hw).symm.trans hb))
  · intro hfree
    refine ⟨fun key hdefinition v hv => ?_, ?_, fun key hdefinition hnone => ?_⟩
    · rw [h, if_neg hdefinition, hv]
      by_cases hname : key = name
      · rw [if_pos hname, Option.none_or]
      · rw [if_neg hname]
        cases hdecoded : decoded.get? key with
        | none => rw [Option.none_or]
        | some w =>
          rw [Option.some_or]
          by_contra hne
          exact hfree ⟨key, w, hname, hdecoded, .inr ⟨v, hv, fun he => hne (he ▸ rfl)⟩⟩
    · rw [h, if_neg (by decide), if_pos rfl, Option.or_none]
      by_contra hne
      obtain ⟨v, hv⟩ := Option.ne_none_iff_exists'.1 hne
      exact hfree ⟨definition, v, by decide, hv, .inl rfl⟩
    · rw [h, if_neg hdefinition, hnone, Option.or_none]

end Deployment

namespace Profile

variable {p : Profile} {store : Store}

theorem keyed_of_decode {kind text : String} {d : Decoded} (h : p.decode store kind text = .ok d) :
    d.value.Keyed := by
  obtain ⟨schema, document, root, -, -, hread, hroot, rfl⟩ := decode_eq_ok_iff.1 h
  exact Decoder.keyed_decodeDocument ((Markup.keyed_of_read hread).documentRoot hroot) schema

/-- An unpacked artifact has the fields of its definition but the name, and in all other places those
it had but the text. Its own fields are untouched unless the definition collides with them. -/
theorem unpack_lifts {a b : Artifact} (h : p.unpack store a = .ok b) :
    b.id = a.id ∧ b.kind = a.kind ∧ (∃ fields, b.value = .object fields) ∧
      ∃ text d, a.field? definition = some (.string text) ∧ p.decode store a.kind text = .ok d ∧
        (∀ key, b.field? key = (if key = name then none else d.value.get? key).or
          (if key = definition then none else a.field? key)) ∧
        (Lifted a d.value.fields b ↔ ¬ Collides a d.value.fields) := by
  obtain ⟨-, text, d, htext, hd, rfl⟩ := unpack_eq_ok_iff.1 h
  have hfields : ∀ key, (a.withValue (.object (unpackedFields a d.value.fields))).field? key =
      (if key = name then none else d.value.get? key).or
        (if key = definition then none else a.field? key) :=
    fun key => get?_unpackedFields (keyed_of_decode hd).distinct_fields
  exact ⟨rfl, rfl, ⟨_, rfl⟩, text, d, htext, hd, hfields, lifted_iff hfields⟩

/-- A dataset that has a name of its own beside the one in its definition. -/
def sales : Artifact :=
  ⟨⟨["sample"]⟩, "dataset", .object [("scriptid", .string "custdataset1"), ("name", .string "Sales"),
    ("definition", .string ("<root><name><translationScriptId>Other</translationScriptId></name>" ++
      "<version>0.1</version><_T_>dataSet</_T_></root>"))]⟩

theorem unpack_lifts_sales : ∃ b text d, Profile.unpack {} .empty sales = .ok b ∧
    sales.field? definition = some (.string text) ∧
    Profile.decode {} .empty "dataset" text = .ok d ∧ Lifted sales d.value.fields b := by
  have hcheck : ((Profile.unpack {} .empty sales).toOption.any fun _ => (sales.field? definition).any
      fun v => v.asString?.any fun text => (Profile.decode {} .empty "dataset" text).toOption.any
        fun d => d.value.fields.keys == ["name", "version"]) = true := by
    decide +kernel
  simp only [Option.any_eq_true, beq_iff_eq] at hcheck
  obtain ⟨b, hb, v, hv, text', htext', d', hd', hkeys⟩ := hcheck
  rw [← eq_ok_iff_toOption] at hb hd'
  obtain ⟨-, -, -, text, d, htext, hd, -, hlifted⟩ := unpack_lifts hb
  obtain rfl : text' = text := by
    cases hv.symm.trans htext
    exact (Option.some.inj htext').symm
  obtain rfl : d' = d := Except.ok.inj (hd'.symm.trans hd)
  refine ⟨b, text', d', hb, htext, hd, hlifted.2 ?_⟩
  rintro ⟨key, w, hname, hw, hcollides⟩
  have hkey : key ∈ d'.value.fields.keys := Entries.mem_keys_of_mem (Entries.mem_of_get?_eq_some hw)
  obtain rfl : key = "version" := by
    rw [hkeys] at hkey
    simpa [Deployment.name, show key ≠ "name" from hname] using hkey
  rcases hcollides with he | ⟨u, hu, -⟩
  · exact absurd he (by decide)
  · cases hu

/-- A dataset whose definition has elements for its script id and for the text itself. -/
def overlaid : Artifact :=
  ⟨⟨["a"]⟩, "dataset", .object [("scriptid", .string "custdataset1"),
    ("definition", .string "<root><scriptid>other</scriptid><definition>text</definition></root>")]⟩

/-- The script id of the artifact is lost and a text takes the place of the definition. -/
theorem instance_overwritten : ∃ b, Profile.unpack {} .empty overlaid = .ok b ∧
    overlaid.field? "scriptid" = some (.string "custdataset1") ∧
    b.field? "scriptid" = some (.string "other") ∧ b.field? definition = some (.string "text") := by
  have hcheck : ((Profile.unpack {} .empty overlaid).toOption.any fun b =>
      ((b.field? "scriptid").bind Value.asString? == some "other") &&
        ((b.field? definition).bind Value.asString? == some "text")) = true := by
    decide +kernel
  have hstring : ∀ {v : Option Value} {t : String}, v.bind Value.asString? = some t →
      v = some (.string t) := by
    intro v t h
    obtain ⟨v, rfl, hv⟩ := Option.bind_eq_some_iff.1 h
    cases v with
    | string s => rw [Option.some.inj hv]
    | _ => cases hv
  simp only [Option.any_eq_true, Bool.and_eq_true, beq_iff_eq] at hcheck
  obtain ⟨b, hb, hscript, htext⟩ := hcheck
  exact ⟨b, eq_ok_iff_toOption.2 hb, rfl, hstring hscript, hstring htext⟩

end Profile

end TaggedMarkup
