import TaggedMarkup.Encoding
/-!
# Paths of an encoding

The path at which a value is encoded is shown in errors and decides nothing: a value is encoded as
the same tree at every path, or at none.
-/
namespace TaggedMarkup.Encoder

theorem toOption_bind {ε α β : Type} (x : Except ε α) (f : α → Except ε β) :
    (x >>= f).toOption = x.toOption.bind fun a => (f a).toOption := by
  cases x <;> rfl

theorem toOption_map {ε α β : Type} (x : Except ε α) (f : α → β) :
    (x.map f).toOption = x.toOption.map f := by
  cases x <;> rfl

theorem eq_ok_iff_toOption {ε α : Type} {x : Except ε α} {a : α} :
    x = .ok a ↔ x.toOption = some a := by
  cases x <;> simp [Except.toOption]

variable {e : Encoder} (p q : Path)

theorem toOption_expectScalar (resolved : Option Resolved) (v : Value) :
    (expectScalar resolved v p).toOption = (expectScalar resolved v q).toOption := by
  unfold expectScalar
  split <;> rfl

theorem toOption_expectList (resolved : Option Resolved) (v : Value) :
    (expectList resolved v p).toOption = (expectList resolved v q).toOption := by
  unfold expectList
  split <;> rfl

theorem toOption_attributeEntry (key name : String) (v : Value) :
    (e.attributeEntry key name v p).toOption = (e.attributeEntry key name v q).toOption := by
  unfold attributeEntry
  split
  · rfl
  · split <;> rfl

theorem toOption_textEntry (v : Value) :
    (e.textEntry v p).toOption = (e.textEntry v q).toOption := by
  unfold textEntry
  split <;> rfl

theorem toOption_impliedCase (v : VariantType) (fields : Entries Value) :
    (impliedCase v fields p).toOption = (impliedCase v fields q).toOption := by
  unfold impliedCase
  split <;> rfl

/-- Fields are filled in with the same trees everywhere. -/
def FillsAlike (e : Encoder) : Prop :=
  ∀ f p q, (e.fill f p).toOption = (e.fill f q).toOption

theorem toOption_missingEntries (hf : e.FillsAlike) (present : List String)
    (declared : List (String × Field)) :
    (e.missingEntries present p declared).toOption =
      (e.missingEntries present q declared).toOption := by
  induction declared with
  | nil => rfl
  | cons f rest ih =>
    obtain ⟨name, f⟩ := f
    rw [missingEntries, missingEntries]
    split
    · exact ih
    · simp only [toOption_bind, hf f (p.child name) (q.child name), ih]

theorem toOption_withMissing (hf : e.FillsAlike) (entries : Entries Tree) (fields : Entries Value)
    (o : Option ObjectType) :
    (e.withMissing entries fields o p).toOption = (e.withMissing entries fields o q).toOption := by
  cases o with
  | none => rfl
  | some o =>
    simp only [withMissing, toOption_bind, toOption_missingEntries p q hf]

mutual

theorem toOption_encode (hf : e.FillsAlike) (v : Value) (schema : Option Schema)
    (verbatim : Bool) (p q : Path) :
    (e.encode v schema verbatim p).toOption = (e.encode v schema verbatim q).toOption := by
  match v with
  | .reference r => rfl
  | .null => rfl
  | .bool b =>
    simp only [encode, toOption_bind, toOption_expectScalar p q]
  | .number n =>
    simp only [encode, toOption_bind, toOption_expectScalar p q]
  | .string t =>
    simp only [encode, toOption_bind, toOption_expectScalar p q]
  | .list items =>
    simp only [encode, toOption_bind, toOption_expectList p q, toOption_encodeItems hf items _ p q 0]
  | .object fields =>
    unfold encode
    split
    · simp only [toOption_bind, toOption_encodeFields hf fields _ _ p q]
    · simp only [toOption_bind, toOption_encodeFields hf fields _ _ p q]
    · simp only [toOption_bind, toOption_encodeFields hf fields _ _ p q,
        toOption_withMissing p q hf]
    · split
      · rfl
      · split
        · simp only [toOption_bind, toOption_encodePayload hf fields _ p q]
        · simp only [toOption_bind, toOption_impliedCase p q,
            toOption_encodeFields hf fields _ _ p q, toOption_withMissing p q hf]
    · split <;> rfl

theorem toOption_encodeItems (hf : e.FillsAlike) (items : List Value) (item : Option Schema)
    (p q : Path) (i : Nat) :
    (e.encodeItems items item p i).toOption = (e.encodeItems items item q i).toOption := by
  match items with
  | [] => rfl
  | v :: rest =>
    simp only [encodeItems, toOption_bind, toOption_encode hf v item false _ (q.child (toString i)),
      toOption_encodeItems hf rest item p q (i + 1)]

theorem toOption_encodeFields (hf : e.FillsAlike) (fields : List (String × Value)) (skipCase : Bool)
    (o : Option ObjectType) (p q : Path) :
    (e.encodeFields skipCase fields o p).toOption =
      (e.encodeFields skipCase fields o q).toOption := by
  match fields with
  | [] => rfl
  | (key, v) :: rest =>
    rw [encodeFields, encodeFields]
    split
    · exact toOption_encodeFields hf rest skipCase o p q
    · have hrest := toOption_encodeFields hf rest skipCase o p q
      dsimp only
      split
      · simp only [toOption_bind, toOption_attributeEntry p q, hrest]
      · split
        · simp only [toOption_bind, toOption_textEntry p q, hrest]
        · split
          · rfl
          · split
            · rfl
            · simp only [toOption_bind, toOption_map, toOption_encode hf v _ _ _ (q.child key),
                hrest]

theorem toOption_encodePayload (hf : e.FillsAlike) (fields : List (String × Value))
    (o : Option ObjectType) (p q : Path) :
    (e.encodePayload fields o p).toOption = (e.encodePayload fields o q).toOption := by
  match fields with
  | [] => rfl
  | (case, .object payload) :: _ =>
    simp only [encodePayload, toOption_bind,
      toOption_encodeFields hf payload false o _ (q.child case),
      toOption_withMissing _ (q.child case) hf]
  | (case, .null) :: _ => exact toOption_withMissing _ _ hf _ _ _
  | (_, .bool _) :: _ | (_, .number _) :: _ | (_, .string _) :: _ | (_, .list _) :: _
  | (_, .reference _) :: _ => rfl

end

theorem fillsAlike_fillField (registry : Registry) (convention : Convention) (chain : Nat) :
    FillsAlike ⟨registry, convention, fillField registry convention chain⟩ := by
  induction chain with
  | zero => exact fun _ _ _ => rfl
  | succ chain ih => exact fun f p q => toOption_encode ih _ _ _ p q

theorem fillsAlike_ofRegistry (registry : Registry) (convention : Convention) :
    (ofRegistry registry convention).FillsAlike :=
  fillsAlike_fillField registry convention (fieldCount registry)

/-- What succeeds at one path succeeds at every path, with the same tree. -/
theorem encode_at {v : Value} {schema : Option Schema} {verbatim : Bool} {t : Tree} {p : Path}
    (hf : e.FillsAlike) (h : e.encode v schema verbatim p = .ok t) (q : Path) :
    e.encode v schema verbatim q = .ok t := by
  rw [eq_ok_iff_toOption] at h ⊢
  rw [← h]
  exact toOption_encode hf v schema verbatim q p

theorem fill_at {f : Field} {t : Tree} {p : Path} (hf : e.FillsAlike) (h : e.fill f p = .ok t)
    (q : Path) : e.fill f q = .ok t := by
  rw [eq_ok_iff_toOption] at h ⊢
  rw [← h]
  exact hf f q p

end TaggedMarkup.Encoder
