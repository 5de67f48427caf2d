import TaggedMarkup.Deployment
import TaggedMarkup.Value.Edit
/-!
# Working sessions

A session keeps a profile, a store and the value, text and artifact last worked on, so that a
definition can be read, edited and written step by step. A command that fails leaves what it would
have made as it was; what is handed to it is kept all the same.
-/
namespace TaggedMarkup

structure Session where
  profile : Profile := {}
  store : Store := .empty
  value : Value := .object []
  text : String := ""
  artifact : Artifact := ⟨⟨[]⟩, "", .object []⟩

inductive Command where
  | configure (settings : Settings)
  | rename (convention : Convention)
  | insert (artifact : Artifact)
  | remove (id : Path)
  /-- Reads the given text, or that of the session. -/
  | decode (kind : String) (text : Option String)
  /-- Writes the given value, or that of the session. -/
  | encode (kind : String) (value : Option Value)
  | set (path : List String) (value : Value)
  | unset (path : List String)
  | fetch (artifact : Option Artifact)
  | deploy (artifact : Option Artifact)
  /-- Starts over from the defaults of a kind. -/
  | synthesize (kind : String)

/-- What a command answers. -/
inductive Outcome where
  | settings (settings : Settings)
  | done
  /-- Whether the store held an artifact at the address. -/
  | stored (known : Bool)
  | decoded (decoded : Decoded)
  | text (text : String)
  /-- What a field held before. -/
  | former (value : Option Value)
  | artifact (artifact : Artifact)
  | value (value : Value)

inductive CommandFault where
  | decode (error : DecodeError)
  | encode (error : EncodeError)
  | deployment (error : DeploymentError)
  | noSuchField
  | noSchema
  deriving DecidableEq

namespace Session

/-- Keeps the artifact and value that come out of a fetch or deployment. -/
def finish (s : Session) :
    Except DeploymentError Artifact → Session × Except CommandFault Outcome
  | .ok a => ({ s with artifact := a, value := a.value }, .ok (.artifact a))
  | .error error => (s, .error (.deployment error))

/-- Keeps an edited value. -/
def edited (s : Session) :
    Option (Value × Option Value) → Session × Except CommandFault Outcome
  | some (v, former) => ({ s with value := v }, .ok (.former former))
  | none => (s, .error .noSuchField)

def decode (s : Session) (kind text : String) : Session × Except CommandFault Outcome :=
  match s.profile.decode s.store kind text with
  | .ok decoded => ({ s with value := decoded.value }, .ok (.decoded decoded))
  | .error error => (s, .error (.decode error))

def encode (s : Session) (kind : String) : Session × Except CommandFault Outcome :=
  match s.profile.encode kind s.value with
  | .ok text => ({ s with text := text }, .ok (.text text))
  | .error error => (s, .error (.encode error))

def synthesize (s : Session) (kind : String) : Session × Except CommandFault Outcome :=
  match s.profile.registry.schemaFor? kind with
  | some schema =>
    let v := s.profile.registry.synthesize schema
    ({ s with value := v }, .ok (.value v))
  | none => (s, .error .noSchema)

/-- Carries out a command. -/
def step (s : Session) : Command → Session × Except CommandFault Outcome
  | .configure settings =>
    ({ s with profile := { s.profile with settings := settings } }, .ok (.settings settings))
  | .rename convention =>
    ({ s with profile := { s.profile with convention := convention } }, .ok .done)
  | .insert a => ({ s with store := s.store.insert a }, .ok (.stored (s.store.get? a.id).isSome))
  | .remove id => ({ s with store := s.store.erase id }, .ok (.stored (s.store.get? id).isSome))
  | .decode kind text => s.decode kind (text.getD s.text)
  | .encode kind value => { s with value := value.getD s.value }.encode kind
  | .set path value => s.edited (s.value.set? path value)
  | .unset path => s.edited (s.value.unset? path)
  | .fetch artifact =>
    let a := artifact.getD s.artifact
    { s with artifact := a }.finish (s.profile.unpack s.store a)
  | .deploy artifact =>
    let a := artifact.getD (s.artifact.withValue s.value)
    { s with artifact := a }.finish (s.profile.pack a)
  | .synthesize kind => s.synthesize kind

/-- Carries out commands one after the other, with what each of them answers. -/
def run (s : Session) : List Command → Session × List (Except CommandFault Outcome)
  | [] => (s, [])
  | c :: rest =>
    let (next, answer) := s.step c
    let (last, answers) := next.run rest
    (last, answer :: answers)

end Session

end TaggedMarkup
