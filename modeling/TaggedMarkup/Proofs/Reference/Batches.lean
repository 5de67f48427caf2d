import TaggedMarkup.Proofs.Reference.Resolutions
import TaggedMarkup.Reference.Batch
import TaggedMarkup.Reference.Collection
/-!
# Batches in any order of completion

However the lookups of a batch overlap, every listed entry is looked up once and the table at the end
is that of looking the entries up one by one. No batch gets stuck before its end, and it comes to it
after two events for each distinct entry.
-/
namespace TaggedMarkup

namespace Batch

variable {lookup : EntryPath → Option Reference} {concurrency : Nat} {paths : List EntryPath}
  {b b' : Batch} {p : EntryPath} {events : List Event}

theorem step?_begins_eq_some_iff : b.step? lookup concurrency (.begins p) = some b' ↔
    ∃ rest, b.waiting = p :: rest ∧ b.underWay.length < capacity concurrency ∧
      b' = ⟨rest, b.underWay ++ [p], b.outcomes⟩ := by
  rw [step?, Option.ite_none_right_eq_some, Option.some.injEq]
  constructor
  · rintro ⟨⟨hhead, hroom⟩, rfl⟩
    obtain ⟨rest, hrest⟩ := List.head?_eq_some_iff.1 hhead
    exact ⟨rest, hrest, hroom, by rw [hrest, List.tail_cons]⟩
  · rintro ⟨rest, hrest, hroom, rfl⟩
    simp [hrest, hroom]

theorem step?_completes_eq_some_iff : b.step? lookup concurrency (.completes p) = some b' ↔
    p ∈ b.underWay ∧
      b' = ⟨b.waiting, b.underWay.erase p, b.outcomes ++ [(p, lookup p)]⟩ := by
  rw [step?, Option.ite_none_right_eq_some, Option.some.injEq, eq_comm (a := b')]

theorem run?_cons (e : Event) : run? lookup concurrency b (e :: events) =
    (b.step? lookup concurrency e).bind fun b => b.run? lookup concurrency events := rfl

theorem run?_append (events more : List Event) : run? lookup concurrency b (events ++ more) =
    (b.run? lookup concurrency events).bind fun b => b.run? lookup concurrency more :=
  List.foldlM_append

/-! ## What a run keeps -/

/-- The entries whose lookups begin in a list of events. -/
def begun : List Event → List EntryPath
  | [] => []
  | .begins p :: rest => p :: begun rest
  | .completes _ :: rest => begun rest

theorem begun_append (events more : List Event) :
    begun (events ++ more) = begun events ++ begun more := by
  induction events with
  | nil => rfl
  | cons e rest ih => cases e <;> simp [begun, ih]

theorem count_begins (events : List Event) (p : EntryPath) :
    events.count (.begins p) = (begun events).count p := by
  induction events with
  | nil => rfl
  | cons e rest ih => cases e <;> simp [begun, List.count_cons, ih]

/-- Where a batch is after some events: each distinct entry has begun or waits, what has begun is
under way or has its outcome, and every event is accounted for. -/
structure Reached (lookup : EntryPath → Option Reference) (concurrency : Nat)
    (paths : List EntryPath) (events : List Event) (b : Batch) : Prop where
  begun_waiting : begun events ++ b.waiting = paths.eraseDups
  perm_begun : (b.underWay ++ b.outcomes.map Prod.fst).Perm (begun events)
  outcomes_eq : b.outcomes = (b.outcomes.map Prod.fst).map fun p => (p, lookup p)
  length_underWay_le : b.underWay.length ≤ capacity concurrency
  length_events : events.length = b.underWay.length + 2 * b.outcomes.length

theorem reached_start : Reached lookup concurrency paths [] (start paths) :=
  ⟨rfl, .refl _, rfl, Nat.zero_le _, rfl⟩

theorem Reached.step {e : Event} (h : Reached lookup concurrency paths events b)
    (hstep : b.step? lookup concurrency e = some b') :
    Reached lookup concurrency paths (events ++ [e]) b' := by
  cases e with
  | begins p =>
    obtain ⟨rest, hrest, hroom, rfl⟩ := step?_begins_eq_some_iff.1 hstep
    have hbegun : begun (events ++ [.begins p]) = begun events ++ [p] := begun_append _ _
    refine ⟨?_, ?_, h.outcomes_eq, ?_, ?_⟩
    · rw [hbegun, List.append_assoc, ← h.begun_waiting, hrest]
      rfl
    · have hmove : (b.underWay ++ [p] ++ b.outcomes.map Prod.fst).Perm
          (b.underWay ++ b.outcomes.map Prod.fst ++ [p]) := by
        rw [List.append_assoc, List.append_assoc]
        exact List.perm_append_comm.append_left _
      rw [hbegun]
      exact hmove.trans (h.perm_begun.append_right [p])
    · rw [List.length_append]
      exact hroom
    · simp only [List.length_append, List.length_singleton, h.length_events]
      omega
  | completes p =>
    obtain ⟨hp, rfl⟩ := step?_completes_eq_some_iff.1 hstep
    have hbegun : begun (events ++ [.completes p]) = begun events := by
      rw [begun_append]
      exact List.append_nil _
    have hlength := List.length_erase_of_mem hp
    have hpos := List.length_pos_of_mem hp
    refine ⟨?_, ?_, ?_, ?_, ?_⟩
    · rw [hbegun]
      exact h.begun_waiting
    · have hmove : (b.underWay.erase p ++ (b.outcomes ++ [(p, lookup p)]).map Prod.fst).Perm
          (b.underWay ++ b.outcomes.map Prod.fst) := by
        rw [List.map_append, ← List.append_assoc]
        exact List.perm_append_comm.trans ((List.perm_cons_erase hp).symm.append_right _)
      rw [hbegun]
      exact hmove.trans h.perm_begun
    · rw [List.map_append, List.map_append, ← h.outcomes_eq]
      rfl
    · exact Nat.le_trans List.length_erase_le h.length_underWay_le
    · simp only [List.length_append, List.length_singleton, h.length_events, hlength]
      omega

theorem Reached.run {done : List Event} (h : Reached lookup concurrency paths done b)
    (hrun : b.run? lookup concurrency events = some b') :
    Reached lookup concurrency paths (done ++ events) b' := by
  induction events generalizing done b with
  | nil =>
    cases hrun
    rwa [List.append_nil]
  | cons e rest ih =>
    rw [run?_cons] at hrun
    obtain ⟨next, hstep, hrest⟩ := Option.bind_eq_some_iff.1 hrun
    have hreached := ih (h.step hstep) hrest
    rwa [List.append_assoc] at hreached

theorem reached_of_run? (h : (start paths).run? lookup concurrency events = some b) :
    Reached lookup concurrency paths events b :=
  reached_start.run h

/-! ## The end of a run -/

theorem isFinished_iff : b.isFinished = true ↔ b.waiting = [] ∧ b.underWay = [] := by
  rw [isFinished, Bool.and_eq_true, List.isEmpty_iff, List.isEmpty_iff]

/-- A lookup that is under way can complete, and if there is none, the next one can begin. -/
theorem exists_step? (h : b.isFinished = false) : ∃ e b', b.step? lookup concurrency e = some b' := by
  cases hunderWay : b.underWay with
  | cons p rest =>
    exact ⟨.completes p, _, step?_completes_eq_some_iff.2 ⟨by simp [hunderWay], rfl⟩⟩
  | nil =>
    cases hwaiting : b.waiting with
    | nil => simp [isFinished, hunderWay, hwaiting] at h
    | cons p rest =>
      have hroom : b.underWay.length < capacity concurrency := by
        rw [hunderWay]
        exact Nat.le_max_right concurrency 1
      exact ⟨.begins p, _, step?_begins_eq_some_iff.2 ⟨rest, hwaiting, hroom, rfl⟩⟩

/-- One lookup after the other. -/
def inTurn (ps : List EntryPath) : List Event := ps.flatMap fun p => [.begins p, .completes p]

theorem run?_inTurn (ps : List EntryPath) (outcomes : List (EntryPath × Option Reference)) :
    run? lookup concurrency ⟨ps, [], outcomes⟩ (inTurn ps) =
      some ⟨[], [], outcomes ++ ps.map fun p => (p, lookup p)⟩ := by
  induction ps generalizing outcomes with
  | nil => simp [inTurn, run?]
  | cons p rest ih =>
    have hevents : inTurn (p :: rest) = .begins p :: .completes p :: inTurn rest := rfl
    have hbegins : step? lookup concurrency ⟨p :: rest, [], outcomes⟩ (.begins p) =
        some ⟨rest, [p], outcomes⟩ :=
      step?_begins_eq_some_iff.2 ⟨rest, rfl, Nat.le_max_right concurrency 1, rfl⟩
    have hcompletes : step? lookup concurrency ⟨rest, [p], outcomes⟩ (.completes p) =
        some ⟨rest, [], outcomes ++ [(p, lookup p)]⟩ :=
      step?_completes_eq_some_iff.2 ⟨List.mem_singleton_self p, by rw [List.erase_cons_head]⟩
    rw [hevents, run?_cons, hbegins, Option.bind_some, run?_cons, hcompletes, Option.bind_some, ih,
      List.append_assoc, List.map_cons]
    rfl

theorem run?_begins {ps underWay : List EntryPath} {outcomes : List (EntryPath × Option Reference)}
    (hroom : underWay.length + ps.length ≤ capacity concurrency) :
    run? lookup concurrency ⟨ps, underWay, outcomes⟩ (ps.map .begins) =
      some ⟨[], underWay ++ ps, outcomes⟩ := by
  induction ps generalizing underWay with
  | nil => simp [run?]
  | cons p rest ih =>
    rw [List.length_cons] at hroom
    have hbegins : step? lookup concurrency ⟨p :: rest, underWay, outcomes⟩ (.begins p) =
        some ⟨rest, underWay ++ [p], outcomes⟩ :=
      step?_begins_eq_some_iff.2 ⟨rest, rfl, by simp only; omega, rfl⟩
    have hrest : (underWay ++ [p]).length + rest.length ≤ capacity concurrency := by
      rw [List.length_append, List.length_singleton]
      omega
    rw [List.map_cons, run?_cons, hbegins, Option.bind_some, ih hrest, List.append_assoc]
    rfl

theorem run?_completes {order underWay : List EntryPath} (h : order.Perm underWay)
    (outcomes : List (EntryPath × Option Reference)) :
    run? lookup concurrency ⟨[], underWay, outcomes⟩ (order.map .completes) =
      some ⟨[], [], outcomes ++ order.map fun p => (p, lookup p)⟩ := by
  induction order generalizing underWay outcomes with
  | nil =>
    rw [List.nil_perm.1 h]
    simp [run?]
  | cons p rest ih =>
    have hp : p ∈ underWay := h.subset List.mem_cons_self
    have hcompletes : step? lookup concurrency ⟨[], underWay, outcomes⟩ (.completes p) =
        some ⟨[], underWay.erase p, outcomes ++ [(p, lookup p)]⟩ :=
      step?_completes_eq_some_iff.2 ⟨hp, rfl⟩
    have hrest : rest.Perm (underWay.erase p) := (h.trans (List.perm_cons_erase hp)).cons_inv
    rw [List.map_cons, run?_cons, hcompletes, Option.bind_some, ih hrest, List.append_assoc,
      List.map_cons]
    rfl

/-- If all lookups may be under way together, they can complete in every order. -/
theorem exists_run_in_order {order : List EntryPath} (h : order.Perm paths.eraseDups)
    (hroom : paths.eraseDups.length ≤ capacity concurrency) :
    ∃ events b, (start paths).run? lookup concurrency events = some b ∧ b.isFinished = true ∧
      b.outcomes.map Prod.fst = order := by
  have hbegun : (start paths).run? lookup concurrency (paths.eraseDups.map .begins) =
      some ⟨[], paths.eraseDups, []⟩ := run?_begins (by simpa using hroom)
  refine ⟨paths.eraseDups.map .begins ++ order.map .completes,
    ⟨[], [], order.map fun p => (p, lookup p)⟩, ?_, rfl, ?_⟩
  · rw [run?_append, hbegun, Option.bind_some, run?_completes h, List.nil_append]
  · simp [List.map_map, Function.comp_def]

theorem nodup_eraseDups (ps : List EntryPath) : ps.eraseDups.Nodup := by
  induction hn : ps.length using Nat.strongRecOn generalizing ps with
  | ind n ih =>
    cases ps with
    | nil => exact List.nodup_nil
    | cons p rest =>
      have hfilter := List.length_filter_le (fun q => !q == p) rest
      rw [List.eraseDups_cons, List.nodup_cons, List.mem_eraseDups]
      refine ⟨by simp, ih _ ?_ _ rfl⟩
      rw [← hn, List.length_cons]
      omega

theorem length_eraseDups (ps : List EntryPath) : ps.eraseDups.length = ps.toFinset.card := by
  rw [← List.toFinset_card_of_nodup (nodup_eraseDups ps)]
  congr 1
  ext p
  simp

namespace Reached

theorem length_events_le (h : Reached lookup concurrency paths events b) :
    events.length ≤ 2 * paths.toFinset.card := by
  have hbegun : (begun events).length ≤ paths.toFinset.card := by
    rw [← length_eraseDups, ← h.begun_waiting, List.length_append]
    exact Nat.le_add_right _ _
  have hlength := h.perm_begun.length_eq
  rw [List.length_append, List.length_map] at hlength
  rw [h.length_events]
  omega

theorem begun_of_isFinished (h : Reached lookup concurrency paths events b)
    (hf : b.isFinished = true) : begun events = paths.eraseDups := by
  rw [← h.begun_waiting, (isFinished_iff.1 hf).1, List.append_nil]

/-- The outcomes of a finished batch are those of all entries, in some order. -/
theorem exists_perm_of_isFinished (h : Reached lookup concurrency paths events b)
    (hf : b.isFinished = true) : ∃ ps : List EntryPath, ps.Perm paths.eraseDups ∧
      b.resolutions = .ofOutcomes (ps.map fun p => (p, lookup p)) := by
  refine ⟨b.outcomes.map Prod.fst, ?_, congrArg _ h.outcomes_eq⟩
  have hperm := h.perm_begun
  rwa [(isFinished_iff.1 hf).2, h.begun_of_isFinished hf] at hperm

end Reached

end Batch

namespace Convention

/-- Looking the entries up in turn is one run of a batch, and if it may have all lookups under way
there is one for every order of completion. However many it allows, a batch takes at most two events
for each distinct entry and does not get stuck before its end. Then every listed entry has been looked
up once, in whichever order the lookups completed, and the table is that of single lookups. -/
theorem batch_resolves (c : Convention) (store : Store) (paths : List EntryPath)
    (concurrency : Nat) :
    (∃ events b, (Batch.start paths).run? (c.resolve? store) concurrency events = some b ∧
      b.isFinished = true ∧ b.resolutions = c.resolveAll store paths) ∧
    (∀ order : List EntryPath, order.Perm paths.eraseDups →
      paths.eraseDups.length ≤ max concurrency 1 →
      ∃ events b, (Batch.start paths).run? (c.resolve? store) concurrency events = some b ∧
        b.isFinished = true ∧ b.outcomes.map Prod.fst = order) ∧
    ∀ events b, (Batch.start paths).run? (c.resolve? store) concurrency events = some b →
      b.underWay.length ≤ max concurrency 1 ∧
      events.length ≤ 2 * paths.toFinset.card ∧
      (b.isFinished = false → ∃ e b', b.step? (c.resolve? store) concurrency e = some b') ∧
      (b.isFinished = true →
        (∀ p, events.count (.begins p) = if p ∈ paths then 1 else 0) ∧
        (∀ p, b.resolutions.get? p = if p ∈ paths then c.resolve? store p else none) ∧
        b.resolutions.size = paths.toFinset.card ∧
        b.resolutions.unresolved.Pairwise EntryPath.Before ∧
        ∀ p, p ∈ b.resolutions.unresolved ↔ p ∈ paths ∧ c.resolve? store p = none) := by
  refine ⟨⟨_, _, Batch.run?_inTurn _ [], rfl, rfl⟩,
    fun order hperm hroom => Batch.exists_run_in_order hperm hroom, fun events b hrun => ?_⟩
  have hreached := Batch.reached_of_run? hrun
  refine ⟨hreached.length_underWay_le, hreached.length_events_le, Batch.exists_step?, fun hf => ?_⟩
  obtain ⟨ps, hperm, htable⟩ := hreached.exists_perm_of_isFinished hf
  have hmem : ∀ p, p ∈ ps ↔ p ∈ paths := fun p => hperm.mem_iff.trans List.mem_eraseDups
  rw [htable]
  refine ⟨fun p => ?_, fun p => ?_, ?_, (Resolutions.single_ofOutcomes _).pairwise_unresolved,
    fun p => ?_⟩
  · rw [Batch.count_begins, hreached.begun_of_isFinished hf,
      (Batch.nodup_eraseDups paths).count]
    simp only [List.mem_eraseDups]
  · rw [Resolutions.get?_ofOutcomes]
    simp only [hmem]
  · rw [Resolutions.size_ofOutcomes]
    congr 1
    ext p
    simp only [List.mem_toFinset, hmem]
  · rw [Resolutions.mem_unresolved_ofOutcomes, hmem]

/-- One collection with one entry. -/
def stored : Store := .insert .empty (standard.collection "custcollectiontranslations_a" ["b"])

def held : EntryPath := ⟨"custcollectiontranslations_a", "b"⟩

def absent : EntryPath := ⟨"custcollectiontranslations_a", "c"⟩

/-- Two lookups that overlap, of which the later one completes first. -/
theorem batch_resolves_overlapping : ∃ b,
    (Batch.start [held, absent, held]).run? (standard.resolve? stored) 2
      [.begins held, .begins absent, .completes absent, .completes held] = some b ∧
    b.isFinished = true ∧ b.outcomes.map Prod.fst = [absent, held] ∧
    b.resolutions.get? held = some (standard.reference held) ∧
    b.resolutions.size = 2 ∧ absent ∈ b.resolutions.unresolved := by
  have hheld : standard.resolve? stored held = some (standard.reference held) := by decide +kernel
  have habsent : standard.resolve? stored absent = none := by decide +kernel
  have hrun : (Batch.start [held, absent, held]).run? (standard.resolve? stored) 2
      [.begins held, .begins absent, .completes absent, .completes held] =
        some ⟨[], [], [(absent, none), (held, some (standard.reference held))]⟩ := by
    decide +kernel
  obtain ⟨-, -, -, hfinished⟩ := (batch_resolves standard stored _ 2).2.2 _ _ hrun
  obtain ⟨-, hget, hsize, -, hunresolved⟩ := hfinished rfl
  refine ⟨_, hrun, rfl, rfl, ?_, hsize, (hunresolved absent).2 ⟨by decide, habsent⟩⟩
  rw [hget, if_pos (by decide), hheld]

end Convention

end TaggedMarkup
