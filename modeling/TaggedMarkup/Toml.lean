import TaggedMarkup.Entries
/-!
# TOML documents

A document is a table that grows line by line. How a table came about decides what may still be
added to it: a header may define a table that earlier headers only implied, dotted keys may extend
what dotted keys began, and an inline table is closed.
-/
namespace TaggedMarkup

namespace Toml

/-- How a table came about. -/
inductive Origin where
  /-- On the way to a table that a header defines. -/
  | implied
  /-- On the way to a dotted key. -/
  | dotted
  | defined
  | inlined
  deriving DecidableEq

end Toml

/-- Reals and moments in time are checked when they are read; no setting needs their value. -/
inductive Toml where
  | string (text : String)
  | integer (value : Int)
  | real
  | boolean (value : Bool)
  | moment
  | array (items : List Toml)
  | table (origin : Toml.Origin) (entries : List (String × Toml))
  /-- The tables of an array that headers build, the newest first. -/
  | tables (newestFirst : List (List (String × Toml)))
  deriving Inhabited

namespace Toml

abbrev Table := Entries Toml

/-- Changes the table that a header path leads to; the newest table of an array stands for it. -/
def atHeader? : List String → (Table → Option Table) → Table → Option Table
  | [], change, t => change t
  | key :: rest, change, t =>
    match Entries.get? t key with
    | none => do return Entries.insert t key (.table .implied (← atHeader? rest change []))
    | some (.table origin inner) =>
      if origin = .inlined then none
      else do return Entries.insert t key (.table origin (← atHeader? rest change inner))
    | some (.tables (newest :: older)) => do
      return Entries.insert t key (.tables ((← atHeader? rest change newest) :: older))
    | some _ => none

/-- Defines the table of a header; only a table that is implied may be there already. -/
def define? (key : String) (t : Table) : Option Table :=
  match Entries.get? t key with
  | none => some (Entries.insert t key (.table .defined []))
  | some (.table .implied inner) => some (Entries.insert t key (.table .defined inner))
  | some _ => none

/-- Adds a table to the array of a header. -/
def addToArray? (key : String) (t : Table) : Option Table :=
  match Entries.get? t key with
  | none => some (Entries.insert t key (.tables [[]]))
  | some (.tables all) => some (Entries.insert t key (.tables ([] :: all)))
  | some _ => none

/-- Adds a value under a dotted key, given as the tables on its way and its last part. The last of
these tables must have come about by dotted keys, and none of them by a header of its own. -/
def addValue? (value : Toml) (last : String) : List String → Table → Option Table
  | [], t => if Entries.contains t last then none else some (Entries.insert t last value)
  | key :: rest, t =>
    match Entries.get? t key with
    | none => do return Entries.insert t key (.table .dotted (← addValue? value last rest []))
    | some (.table origin inner) =>
      if origin = .dotted ∨ (origin = .implied ∧ rest ≠ []) then do
        return Entries.insert t key (.table origin (← addValue? value last rest inner))
      else none
    | some (.tables (newest :: older)) =>
      if rest = [] then none
      else do return Entries.insert t key (.tables ((← addValue? value last rest newest) :: older))
    | some _ => none

/-- The tables on the way of a dotted key and its last part. -/
def splitKey? (key : List String) : Option (List String × String) :=
  key.getLast?.map fun last => (key.dropLast, last)

end Toml

end TaggedMarkup
