import TaggedMarkup.Reference.Resolution
/-!
# Batches of lookups

A batch looks up a list of entries several at a time. Lookups begin in the order in which their
entries were first listed and complete in any order; the batch is finished when all have completed,
and its table is filled in the order in which they did. `Convention.resolveAll` is the batch whose
lookups come one after the other.
-/
namespace TaggedMarkup

structure Batch where
  /-- Entries whose lookups have not begun, the next one first. -/
  waiting : List EntryPath
  /-- Entries whose lookups have begun and not completed. -/
  underWay : List EntryPath
  /-- The outcomes of the completed lookups, the latest one last. -/
  outcomes : List (EntryPath × Option Reference)
  deriving DecidableEq, Inhabited

namespace Batch

inductive Event where
  | begins (p : EntryPath)
  | completes (p : EntryPath)
  deriving DecidableEq

/-- Each distinct entry waits for one lookup. -/
def start (paths : List EntryPath) : Batch := ⟨paths.eraseDups, [], []⟩

/-- Lookups under way at a time. One is always allowed, for a batch that allows none would not
begin. -/
def capacity (concurrency : Nat) : Nat := max concurrency 1

/-- What an event leads to; `none` if it cannot happen. -/
def step? (lookup : EntryPath → Option Reference) (concurrency : Nat) (b : Batch) :
    Event → Option Batch
  | .begins p =>
    if b.waiting.head? = some p ∧ b.underWay.length < capacity concurrency then
      some { b with waiting := b.waiting.tail, underWay := b.underWay ++ [p] }
    else none
  | .completes p =>
    if p ∈ b.underWay then
      some { b with underWay := b.underWay.erase p, outcomes := b.outcomes ++ [(p, lookup p)] }
    else none

def run? (lookup : EntryPath → Option Reference) (concurrency : Nat) (b : Batch)
    (events : List Event) : Option Batch :=
  events.foldlM (step? lookup concurrency) b

def isFinished (b : Batch) : Bool := b.waiting.isEmpty && b.underWay.isEmpty

/-- The table of the outcomes so far. -/
def resolutions (b : Batch) : Resolutions := .ofOutcomes b.outcomes

end Batch

end TaggedMarkup
