import TaggedMarkup.Profile
/-!
# Definitions inside artifacts

A dataset or workbook artifact carries its definition as text in one field. `unpack` decodes it and
puts the decoded fields beside those of the instance; `pack` rebuilds the text from every field that
does not belong to the instance, and gives a workbook a summary of its visualizations.
-/
namespace TaggedMarkup

/-- Why an artifact cannot be unpacked or packed. -/
inductive DeploymentFault where
  | unsupportedKind (kind : String)
  | missingDefinition
  | decode (error : DecodeError)
  | encode (error : EncodeError)
  deriving DecidableEq

def DeploymentFault.message : DeploymentFault → String
  | unsupportedKind kind => "artifact kind " ++ kind ++ " carries no tagged definition"
  | missingDefinition => "missing string field 'definition'"
  | decode error => error.message
  | encode error => error.message

/-- A fault and the artifact it was found in. -/
structure DeploymentError where
  id : Path
  fault : DeploymentFault
  deriving DecidableEq

def DeploymentError.message (e : DeploymentError) : String :=
  e.id.display ++ ": " ++ e.fault.message

namespace Deployment

/-- The field that holds the text of the definition. -/
def definition : String := "definition"

/-- The name of an artifact, which belongs to the instance even where a definition has one. -/
def name : String := "name"

/-- The fields of the instance that packing keeps as they are. -/
def keptFields : List String := [name, "scriptid", "dependencies"]

/-- The fields that never enter a definition. -/
def instanceFields (kind : String) : List String :=
  definition :: keptFields ++ (if kind = Analytics.workbook then ["tables"] else [])

/-- The entry of a visualization at a position of its list. -/
def summaryEntry (scriptId : String) (index : Nat) : Value :=
  .object [("scriptid", .string scriptId), ("index", .number (Number.ofNat index))]

/-- The visualizations of a list from a position on that have a script id under their case. -/
def summaryEntries (case : String) : List Value → Nat → List (String × Value)
  | [], _ => []
  | v :: rest, index =>
    match (v.getPath? [case, "scriptId"]).bind Value.scalarText? with
    | some id => (id, summaryEntry id index) :: summaryEntries case rest (index + 1)
    | none => summaryEntries case rest (index + 1)

/-- The script ids of a list of visualizations with the last position of each. -/
def summary (fields : Entries Value) (list case title : String) : Value :=
  let items := ((fields.get? list).bind Value.asList?).getD []
  .object [(title, .object (Entries.ofPairs (summaryEntries case items 0)))]

/-- The summaries that a workbook artifact carries. -/
def summaries (kind : String) (fields : Entries Value) : Entries Value :=
  if kind = Analytics.workbook then [
    ("pivots", summary fields "pivots" "pivot" "pivot"),
    ("charts", summary fields "charts" "chart" "chart"),
    ("tables", summary fields "dataViews" "dataView" "table")]
  else []

/-- The name of an artifact as a definition spells it. -/
def definitionName : Value → Value
  | .object fields => .object fields
  | v => .object [("translationScriptId", v)]

end Deployment

namespace Profile

open Deployment

/-- Kinds of artifacts whose definition can be unpacked. -/
def supports (p : Profile) (kind : String) : Bool :=
  (kind == Analytics.dataset || kind == Analytics.workbook) &&
    (p.registry.schemaFor? kind).isSome

def checkKind (p : Profile) (a : Artifact) : Except DeploymentFault Unit :=
  if p.supports a.kind then .ok () else .error (.unsupportedKind a.kind)

def unpackFields (p : Profile) (store : Store) (a : Artifact) :
    Except DeploymentFault (Entries Value) := do
  p.checkKind a
  match a.field? definition with
  | some (.string text) =>
    let decoded ← (p.decode store a.kind text).mapError .decode
    let fields := decoded.value.fields.filter fun f => f.1 ≠ name
    return Entries.extend (a.fields.erase definition) fields
  | _ => .error .missingDefinition

/-- The artifact with the fields of its definition in place of the text. -/
def unpack (p : Profile) (store : Store) (a : Artifact) : Except DeploymentError Artifact :=
  match p.unpackFields store a with
  | .ok fields => .ok (a.withValue (.object fields))
  | .error fault => .error ⟨a.id, fault⟩

/-- The root type of a kind has a name of its own. -/
def declaresName (p : Profile) (kind : String) : Bool :=
  ((p.registry.schemaFor? kind).bind p.registry.objectOf?).any fun o => (o.field? name).isSome

/-- The definition as a value: all fields but those of the instance, and the name at the end. -/
def definitionBody (p : Profile) (a : Artifact) : Entries Value :=
  let body := a.fields.filter fun f => f.1 ∉ instanceFields a.kind
  match a.fields.get? name with
  | some v =>
    if p.declaresName a.kind then Entries.insert body name (definitionName v) else body
  | none => body

def packFields (p : Profile) (a : Artifact) : Except DeploymentFault (Entries Value) := do
  p.checkKind a
  let text ← (p.encode a.kind (.object (p.definitionBody a))).mapError .encode
  let kept := keptFields.filterMap fun key => (a.fields.get? key).map fun v => (key, v)
  return Entries.extend kept ((definition, .string text) :: summaries a.kind a.fields)

/-- The artifact with the text of its definition in place of the fields. -/
def pack (p : Profile) (a : Artifact) : Except DeploymentError Artifact :=
  match p.packFields a with
  | .ok fields => .ok (a.withValue (.object fields))
  | .error fault => .error ⟨a.id, fault⟩

end Profile

end TaggedMarkup
