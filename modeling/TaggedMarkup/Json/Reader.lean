import TaggedMarkup.Json.Token
/-!
# Reading JSON texts

The tokens of a text drive a machine whose stack holds the open arrays and objects, so reading is
one pass over the tokens and nesting costs no recursion.
-/
namespace TaggedMarkup.Json

/-- An open container with its content in reverse. A name is `none` if it has no value. -/
inductive Frame where
  | array (items : List Json)
  | object (members : List (Option String × Json)) (name : Option String)

/-- What may come next. -/
inductive Phase where
  | value
  | valueOrClose
  | name
  | nameOrClose
  | colon
  | commaOrClose
  | finished (value : Json)

structure Reader where
  stack : List Frame
  phase : Phase

namespace Reader

def start : Reader := ⟨[], .value⟩

/-- Puts a complete value where it belongs. -/
def place (value : Json) : List Frame → Reader
  | [] => ⟨[], .finished value⟩
  | .array items :: stack => ⟨.array (value :: items) :: stack, .commaOrClose⟩
  | .object members name :: stack => ⟨.object ((name, value) :: members) name :: stack, .commaOrClose⟩

/-- An object with a name that has no value has none itself. -/
def closeObject (members : List (Option String × Json)) : Json :=
  match members.reverse.mapM fun m => m.1.map fun name => (name, m.2) with
  | some members => .object members
  | none => .unreadable

def beginValue? (stack : List Frame) : Token → Option Reader
  | .openArray => some ⟨.array [] :: stack, .valueOrClose⟩
  | .openObject => some ⟨.object [] none :: stack, .nameOrClose⟩
  | .string (some s) => some (place (.string s) stack)
  | .string none => some (place .unreadable stack)
  | .scalar j => some (place j stack)
  | _ => none

def close? : List Frame → Token → Option Reader
  | .array items :: stack, .closeArray => some (place (.array items.reverse) stack)
  | .object members _ :: stack, .closeObject => some (place (closeObject members) stack)
  | _, _ => none

def takeName? : List Frame → Token → Option Reader
  | .object members _ :: stack, .string name => some ⟨.object members name :: stack, .colon⟩
  | _, _ => none

def step? (r : Reader) (token : Token) : Option Reader :=
  match r.phase, token with
  | .value, t => beginValue? r.stack t
  | .valueOrClose, .closeArray => close? r.stack .closeArray
  | .valueOrClose, t => beginValue? r.stack t
  | .name, t => takeName? r.stack t
  | .nameOrClose, .closeObject => close? r.stack .closeObject
  | .nameOrClose, t => takeName? r.stack t
  | .colon, .colon => some ⟨r.stack, .value⟩
  | .commaOrClose, .comma =>
    match r.stack with
    | .array _ :: _ => some ⟨r.stack, .value⟩
    | .object _ _ :: _ => some ⟨r.stack, .name⟩
    | [] => none
  | .commaOrClose, t => close? r.stack t
  | _, _ => none

end Reader

/-- The one value of a text; `none` if the text is not well formed. -/
def read? (text : String) : Option Json := do
  let tokens ← Token.all? text.toList
  let reader ← tokens.foldlM Reader.step? Reader.start
  match reader.phase with
  | .finished value => some value
  | _ => none

end TaggedMarkup.Json
