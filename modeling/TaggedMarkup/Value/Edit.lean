import TaggedMarkup.Value
/-!
# Changing a value at a path

A path of field names leads through nested objects; lists are not entered. The last name of the path
is the field that is set or removed, so the empty path names none.
-/
namespace TaggedMarkup.Value

/-- The fields of the object that a path of field names leads to. -/
def fieldsAt? : Value → List String → Option (Entries Value)
  | object fields, [] => some fields
  | object fields, key :: rest => (Entries.get? fields key).bind fun v => v.fieldsAt? rest
  | _, _ => none

/-- Changes the fields of the object that a path of field names leads to. -/
def editAt? (edit : Entries Value → Entries Value) : Value → List String → Option Value
  | object fields, [] => some (object (edit fields))
  | object fields, key :: rest => do
    let v ← (← Entries.get? fields key).editAt? edit rest
    return object (Entries.insert fields key v)
  | _, _ => none

/-- Changes the object around a field and gives the value that the field had. -/
def editAround? (v : Value) (path : List String)
    (edit : String → Entries Value → Entries Value) : Option (Value × Option Value) := do
  let key ← path.getLast?
  let fields ← v.fieldsAt? path.dropLast
  return (← v.editAt? (edit key) path.dropLast, Entries.get? fields key)

/-- Sets a field of an object that is there, with the value it had. -/
def set? (v : Value) (path : List String) (new : Value) : Option (Value × Option Value) :=
  v.editAround? path fun key fields => Entries.insert fields key new

/-- Removes a field of an object that is there, with the value it had. -/
def unset? (v : Value) (path : List String) : Option (Value × Option Value) :=
  v.editAround? path fun key fields => Entries.erase fields key

theorem fieldsAt?_editAt? (edit : Entries Value → Entries Value) (v : Value) (path : List String) :
    (v.editAt? edit path).bind (fun w => w.fieldsAt? path) = (v.fieldsAt? path).map edit := by
  induction path generalizing v with
  | nil => cases v <;> rfl
  | cons key rest ih =>
    cases v with
    | object fields =>
      cases h : Entries.get? fields key with
      | none => simp [editAt?, fieldsAt?, h]
      | some child =>
        have hc := ih child
        cases he : child.editAt? edit rest with
        | none => simpa [editAt?, fieldsAt?, h, he] using hc
        | some changed =>
          simpa [editAt?, fieldsAt?, h, he, Entries.get?_insert] using hc
    | _ => rfl

end TaggedMarkup.Value
