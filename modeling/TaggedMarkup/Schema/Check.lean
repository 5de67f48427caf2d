import TaggedMarkup.Dependencies
import TaggedMarkup.Schema
/-!
# Checking a registry

A registry is usable if type names are distinct, every type it names is there, variants are made of
object types, and filling in defaults cannot go on for ever. The last holds if the relation "a field
to be filled in has this object type" has no cycle.
-/
namespace TaggedMarkup

/-- Why a registry is refused. -/
inductive RegistryFault where
  | duplicateType (name : String)
  | unknownType (owner name : String)
  | inlineCases (variant : String) (count : Nat)
  | caseNotObject (case variant : String)
  /-- The types of a cycle, the first repeated at the end. -/
  | unboundedDefaults (cycle : List String)
  deriving DecidableEq

def RegistryFault.message : RegistryFault → String
  | duplicateType name => "type " ++ name ++ " is registered twice"
  | unknownType owner name => owner ++ " refers to unknown type " ++ name
  | inlineCases variant count =>
    "inline variant " ++ variant ++ " has " ++ toString count ++ " cases, expected 1"
  | caseNotObject case variant =>
    "case " ++ case ++ " of variant " ++ variant ++ " is not an object type"
  | unboundedDefaults cycle =>
    "default synthesis never terminates: " ++ String.intercalate " -> " cycle

/-- The schemas that a type refers to. -/
def TypeDef.schemas : TypeDef → List Schema
  | .object o => o.fields.map fun f => f.2.schema
  | .variant v => v.cases.map Prod.snd

namespace Registry

/-- The first name that stands a second time. -/
def firstRepeated? : List String → List String → Option String
  | _, [] => none
  | seen, name :: rest => if name ∈ seen then some name else firstRepeated? (name :: seen) rest

/-- The owners of schemas with each schema they refer to, documents before types. -/
def references (r : Registry) : List (String × Schema) :=
  r.documents ++ r.types.flatMap fun t => t.schemas.map fun s => (t.name, s)

/-- The unregistered type that a reference names. -/
def missingType? (r : Registry) (reference : String × Schema) : Option RegistryFault :=
  match reference.2.typeName? with
  | some name => if (r.type? name).isNone then some (.unknownType reference.1 name) else none
  | none => none

def variantFault? (r : Registry) : TypeDef → Option RegistryFault
  | .object _ => none
  | .variant v =>
    if v.isInline ∧ v.cases.length ≠ 1 then some (.inlineCases v.name v.cases.length)
    else v.cases.findSome? fun (case, schema) =>
      if (r.objectOf? schema).isNone then some (.caseNotObject case v.name) else none

/-- The object type that filling in a field goes on to. -/
def filledBy? (r : Registry) (f : Field) : Option String :=
  match f.optional, f.defaultValue, f.schema with
  | false, none, .named name =>
    match r.objectType? name with
    | some target => if target.defaultValue.isNone then some name else none
    | none => none
  | _, _, _ => none

/-- The object types whose defaults the defaults of a type are made of. -/
def fillEdges (r : Registry) (name : String) : List String :=
  match r.objectType? name with
  | some o => o.fields.filterMap fun f => r.filledBy? f.2
  | none => []

def typeNames (r : Registry) : List String := r.types.map TypeDef.name

/-- Each type, in the order of the names, with the object types that its defaults are made of. -/
def fillings (r : Registry) : Dependencies :=
  (r.typeNames.mergeSort fun a b => (compare a b).isLE).map fun name => (name, r.fillEdges name)

/-- The cycle that filling in would run into, from the first name that leads to one. -/
def fillCycle? (r : Registry) : Option (List String) := r.fillings.cycle?

/-- The first fault, kind by kind. -/
def fault? (r : Registry) : Option RegistryFault :=
  ((firstRepeated? [] r.typeNames).map .duplicateType)
    |>.or (r.references.findSome? r.missingType?)
    |>.or (r.types.findSome? r.variantFault?)
    |>.or (r.fillCycle?.map .unboundedDefaults)

/-- The registry itself if nothing is wrong with it. -/
def check (r : Registry) : Except RegistryFault Registry :=
  match r.fault? with
  | some fault => .error fault
  | none => .ok r

/-- There is no cycle where no type is filled in with another. -/
theorem fillCycle?_eq_none {r : Registry}
    (h : ∀ name ∈ r.typeNames, r.fillEdges name = []) : r.fillCycle? = none := by
  have hcore : Dependencies.core r.fillings = [] := by
    refine List.eq_nil_iff_forall_not_mem.2 fun entry hentry => ?_
    obtain ⟨other, hother, -⟩ := Dependencies.exists_contains_core hentry
    obtain ⟨name, hname, rfl⟩ := List.mem_map.1 (Dependencies.mem_of_mem_pruneWithin hentry)
    rw [h name (List.mem_mergeSort.1 hname)] at hother
    cases hother
  rw [fillCycle?, Dependencies.cycle?, hcore]

end Registry

end TaggedMarkup
