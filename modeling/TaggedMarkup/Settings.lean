/-!
# Settings

How definitions are laid out when written, and what is accepted when they are read.
-/
namespace TaggedMarkup

structure Settings where
  /-- One element a line, children indented. -/
  pretty : Bool := true
  /-- Spaces for each level of nesting. -/
  indent : Nat := 2
  /-- The longest document accepted, in bytes. -/
  maxDocumentBytes : Nat := 10485760
  /-- The deepest nesting of elements accepted. -/
  maxDepth : Nat := 256
  /-- Lookups under way at a time; the outcome does not depend on it. -/
  lookupConcurrency : Nat := 16
  /-- Empty objects and lists are kept in decoded values. -/
  keepEmpty : Bool := false
  deriving DecidableEq, Inhabited

end TaggedMarkup
