import TaggedMarkup.Proofs.Editing
import TaggedMarkup.Proofs.Unpacking
import TaggedMarkup.Session
/-!
# Runs of a session

A command is performed, or refused with nothing changed but what it hands over: `step_eq_ok_iff` and
`step_eq_error_iff` say all that a step can do. Over a whole run the registry stays, and profile and
store are what the commands about them make of them, whatever is read, edited and written in
between. Refused commands that hand nothing over could as well have been left out, and fields that
have been set can be set back.
-/
namespace TaggedMarkup

open Deployment

namespace Store

variable {s : Store}

/-- No address has two artifacts. -/
def Distinct (s : Store) : Prop := (s.artifacts.map Artifact.id).Nodup

theorem Distinct.erase (h : s.Distinct) (id : Path) : (s.erase id).Distinct :=
  List.Nodup.sublist (List.filter_sublist.map Artifact.id) h

theorem Distinct.insert (h : s.Distinct) (a : Artifact) : (s.insert a).Distinct := by
  refine List.nodup_cons.2 ⟨fun hm => ?_, h.erase a.id⟩
  obtain ⟨b, hb, hid⟩ := List.mem_map.1 hm
  exact of_decide_eq_true (List.mem_filter.1 hb).2 hid

theorem distinct_ofList (artifacts : List Artifact) : (ofList artifacts).Distinct := by
  suffices h : ∀ s : Store, s.Distinct → (artifacts.foldl Store.insert s).Distinct from
    h empty List.nodup_nil
  induction artifacts with
  | nil => exact fun s h => h
  | cons a rest ih => exact fun s h => ih (s.insert a) (h.insert a)

end Store

namespace Session

/-! ## One command -/

/-- The session with what a command hands over, before the command is carried out. -/
def handed (s : Session) : Command → Session
  | .encode _ value => { s with value := value.getD s.value }
  | .fetch artifact => { s with artifact := artifact.getD s.artifact }
  | .deploy artifact => { s with artifact := artifact.getD (s.artifact.withValue s.value) }
  | _ => s

/-- What a command answers that is performed, and the session afterwards. -/
inductive Performs (s : Session) : Command → Outcome → Session → Prop
  | configure (settings : Settings) : Performs s (.configure settings) (.settings settings)
      { s with profile := { s.profile with settings := settings } }
  | rename (convention : Convention) : Performs s (.rename convention) .done
      { s with profile := { s.profile with convention := convention } }
  | insert (a : Artifact) : Performs s (.insert a) (.stored (s.store.get? a.id).isSome)
      { s with store := s.store.insert a }
  | remove (id : Path) : Performs s (.remove id) (.stored (s.store.get? id).isSome)
      { s with store := s.store.erase id }
  | decode {kind : String} {text : Option String} {d : Decoded}
      (h : s.profile.decode s.store kind (text.getD s.text) = .ok d) :
      Performs s (.decode kind text) (.decoded d) { s with value := d.value }
  | encode {kind : String} {value : Option Value} {text : String}
      (h : s.profile.encode kind (value.getD s.value) = .ok text) :
      Performs s (.encode kind value) (.text text)
        { s with value := value.getD s.value, text := text }
  | set {path : List String} {new v : Value} {former : Option Value}
      (h : s.value.set? path new = some (v, former)) :
      Performs s (.set path new) (.former former) { s with value := v }
  | unset {path : List String} {v : Value} {former : Option Value}
      (h : s.value.unset? path = some (v, former)) :
      Performs s (.unset path) (.former former) { s with value := v }
  | fetch {artifact : Option Artifact} {a : Artifact}
      (h : s.profile.unpack s.store (artifact.getD s.artifact) = .ok a) :
      Performs s (.fetch artifact) (.artifact a) { s with artifact := a, value := a.value }
  | deploy {artifact : Option Artifact} {a : Artifact}
      (h : s.profile.pack (artifact.getD (s.artifact.withValue s.value)) = .ok a) :
      Performs s (.deploy artifact) (.artifact a) { s with artifact := a, value := a.value }
  | synthesize {kind : String} {schema : Schema}
      (h : s.profile.registry.schemaFor? kind = some schema) :
      Performs s (.synthesize kind) (.value (s.profile.registry.synthesize schema))
        { s with value := s.profile.registry.synthesize schema }

/-- Why a command is refused. Those about the profile and the store never are. -/
inductive Refuses (s : Session) : Command → CommandFault → Prop
  | decode {kind : String} {text : Option String} {error : DecodeError}
      (h : s.profile.decode s.store kind (text.getD s.text) = .error error) :
      Refuses s (.decode kind text) (.decode error)
  | encode {kind : String} {value : Option Value} {error : EncodeError}
      (h : s.profile.encode kind (value.getD s.value) = .error error) :
      Refuses s (.encode kind value) (.encode error)
  | set {path : List String} {new : Value} (h : s.value.set? path new = none) :
      Refuses s (.set path new) .noSuchField
  | unset {path : List String} (h : s.value.unset? path = none) :
      Refuses s (.unset path) .noSuchField
  | fetch {artifact : Option Artifact} {error : DeploymentError}
      (h : s.profile.unpack s.store (artifact.getD s.artifact) = .error error) :
      Refuses s (.fetch artifact) (.deployment error)
  | deploy {artifact : Option Artifact} {error : DeploymentError}
      (h : s.profile.pack (artifact.getD (s.artifact.withValue s.value)) = .error error) :
      Refuses s (.deploy artifact) (.deployment error)
  | synthesize {kind : String} (h : s.profile.registry.schemaFor? kind = none) :
      Refuses s (.synthesize kind) .noSchema

variable {s s' : Session} {c : Command} {outcome : Outcome} {fault : CommandFault}
  {path : List String} {new v : Value} {former : Option Value}

theorem Performs.step_eq (h : s.Performs c outcome s') : s.step c = (s', .ok outcome) := by
  cases h with
  | configure settings => rfl
  | rename convention => rfl
  | insert a => rfl
  | remove id => rfl
  | decode h => rw [step, Session.decode, h]
  | encode h => rw [step, Session.encode, h]
  | set h => rw [step, h, edited]
  | unset h => rw [step, h, edited]
  | fetch h => rw [step, h, finish]
  | deploy h => rw [step, h, finish]
  | synthesize h => rw [step, Session.synthesize, h]

theorem Refuses.step_eq (h : s.Refuses c fault) : s.step c = (s.handed c, .error fault) := by
  cases h with
  | decode h => rw [step, Session.decode, h]; rfl
  | encode h => rw [step, Session.encode, h]; rfl
  | set h => rw [step, h, edited]; rfl
  | unset h => rw [step, h, edited]; rfl
  | fetch h => rw [step, h, finish]; rfl
  | deploy h => rw [step, h, finish]; rfl
  | synthesize h => rw [step, Session.synthesize, h]; rfl

theorem performs_or_refuses (s : Session) (c : Command) :
    (∃ outcome s', s.Performs c outcome s') ∨ ∃ fault, s.Refuses c fault := by
  cases c with
  | configure settings => exact .inl ⟨_, _, .configure settings⟩
  | rename convention => exact .inl ⟨_, _, .rename convention⟩
  | insert a => exact .inl ⟨_, _, .insert a⟩
  | remove id => exact .inl ⟨_, _, .remove id⟩
  | decode kind text =>
    cases h : s.profile.decode s.store kind (text.getD s.text) with
    | ok d => exact .inl ⟨_, _, .decode h⟩
    | error error => exact .inr ⟨_, .decode h⟩
  | encode kind value =>
    cases h : s.profile.encode kind (value.getD s.value) with
    | ok text => exact .inl ⟨_, _, .encode h⟩
    | error error => exact .inr ⟨_, .encode h⟩
  | set path new =>
    cases h : s.value.set? path new with
    | some changed => exact .inl ⟨_, _, .set h⟩
    | none => exact .inr ⟨_, .set h⟩
  | unset path =>
    cases h : s.value.unset? path with
    | some changed => exact .inl ⟨_, _, .unset h⟩
    | none => exact .inr ⟨_, .unset h⟩
  | fetch artifact =>
    cases h : s.profile.unpack s.store (artifact.getD s.artifact) with
    | ok a => exact .inl ⟨_, _, .fetch h⟩
    | error error => exact .inr ⟨_, .fetch h⟩
  | deploy artifact =>
    cases h : s.profile.pack (artifact.getD (s.artifact.withValue s.value)) with
    | ok a => exact .inl ⟨_, _, .deploy h⟩
    | error error => exact .inr ⟨_, .deploy h⟩
  | synthesize kind =>
    cases h : s.profile.registry.schemaFor? kind with
    | some schema => exact .inl ⟨_, _, .synthesize h⟩
    | none => exact .inr ⟨_, .synthesize h⟩

/-- A command is performed, or it is refused and only what it hands over is kept. -/
theorem step_cases (s : Session) (c : Command) :
    (∃ outcome s', s.Performs c outcome s' ∧ s.step c = (s', .ok outcome)) ∨
      ∃ fault, s.Refuses c fault ∧ s.step c = (s.handed c, .error fault) := by
  obtain ⟨outcome, s', h⟩ | ⟨fault, h⟩ := s.performs_or_refuses c
  · exact .inl ⟨outcome, s', h, h.step_eq⟩
  · exact .inr ⟨fault, h, h.step_eq⟩

theorem step_eq_ok_iff : s.step c = (s', .ok outcome) ↔ s.Performs c outcome s' := by
  refine ⟨fun h => ?_, Performs.step_eq⟩
  obtain ⟨outcome', s'', hperforms, hs⟩ | ⟨fault, -, hs⟩ := s.step_cases c
  · cases hs.symm.trans h
    exact hperforms
  · cases hs.symm.trans h

theorem step_eq_error_iff :
    s.step c = (s', .error fault) ↔ s.Refuses c fault ∧ s' = s.handed c := by
  constructor
  · intro h
    obtain ⟨outcome, s'', -, hs⟩ | ⟨fault', hrefuses, hs⟩ := s.step_cases c
    · cases hs.symm.trans h
    · cases hs.symm.trans h
      exact ⟨hrefuses, rfl⟩
  · rintro ⟨h, rfl⟩
    exact h.step_eq

theorem step_performed (h : (s.step c).2 = .ok outcome) : s.Performs c outcome (s.step c).1 :=
  step_eq_ok_iff.1 (Prod.ext rfl h)

/-- A refused command leaves what it would have made as it was. -/
theorem step_refused (h : (s.step c).2 = .error fault) : (s.step c).1 = s.handed c :=
  (step_eq_error_iff.1 (Prod.ext rfl h)).2

/-- A field that is set has the value given, and had the one answered; the rest is as it was. -/
theorem set_changed (h : (s.step (.set path new)).2 = .ok (.former former)) :
    Value.Changed s.value (s.step (.set path new)).1.value path former (some new) := by
  generalize (s.step (.set path new)).1 = s', step_performed h = hperforms
  cases hperforms with
  | set h => exact Value.set?_changed h

theorem unset_changed (h : (s.step (.unset path)).2 = .ok (.former former)) :
    Value.Changed s.value (s.step (.unset path)).1.value path former none := by
  generalize (s.step (.unset path)).1 = s', step_performed h = hperforms
  cases hperforms with
  | unset h => exact Value.unset?_changed h

/-! ## What a run makes of a session -/

/-- What a command makes of the profile. -/
def reprofile (p : Profile) : Command → Profile
  | .configure settings => { p with settings := settings }
  | .rename convention => { p with convention := convention }
  | _ => p

/-- What a command makes of the store. -/
def restock (store : Store) : Command → Store
  | .insert a => store.insert a
  | .remove id => store.erase id
  | _ => store

/-- What a command makes of the artifact that the store has at an address. -/
def relocate (id : Path) (known : Option Artifact) : Command → Option Artifact
  | .insert a => if a.id = id then some a else known
  | .remove key => if key = id then none else known
  | _ => known

/-- The text in an answer, or else the one there was. -/
def rewritten (text : String) : Except CommandFault Outcome → String
  | .ok (.text written) => written
  | _ => text

theorem profile_step (s : Session) (c : Command) :
    (s.step c).1.profile = reprofile s.profile c := by
  obtain ⟨outcome, s', h, hs⟩ | ⟨fault, h, hs⟩ := s.step_cases c
  · rw [hs]
    cases h <;> rfl
  · rw [hs]
    cases h <;> rfl

theorem store_step (s : Session) (c : Command) : (s.step c).1.store = restock s.store c := by
  obtain ⟨outcome, s', h, hs⟩ | ⟨fault, h, hs⟩ := s.step_cases c
  · rw [hs]
    cases h <;> rfl
  · rw [hs]
    cases h <;> rfl

theorem text_step (s : Session) (c : Command) :
    (s.step c).1.text = rewritten s.text (s.step c).2 := by
  obtain ⟨outcome, s', h, hs⟩ | ⟨fault, h, hs⟩ := s.step_cases c
  · rw [hs]
    cases h <;> rfl
  · rw [hs]
    cases h <;> rfl

theorem get?_store_step (id : Path) (s : Session) (c : Command) :
    (s.step c).1.store.get? id = relocate id (s.store.get? id) c := by
  rw [store_step]
  cases c with
  | insert a => exact Store.get?_insert s.store a id
  | remove key => exact Store.get?_erase s.store key id
  | _ => rfl

theorem run_cons (s : Session) (c : Command) (rest : List Command) : s.run (c :: rest) =
    (((s.step c).1.run rest).1, (s.step c).2 :: ((s.step c).1.run rest).2) := rfl

theorem run_append (s : Session) (before after : List Command) : s.run (before ++ after) =
    (((s.run before).1.run after).1, (s.run before).2 ++ ((s.run before).1.run after).2) := by
  induction before generalizing s with
  | nil => rfl
  | cons c rest ih => rw [List.cons_append, run_cons, ih, run_cons, List.cons_append]

/-- What each command makes of a part without regard to the rest, a run makes of it one command
after the other. -/
theorem run_foldl {α : Type} (part : Session → α) {f : α → Command → α}
    (h : ∀ s c, part (s.step c).1 = f (part s) c) (s : Session) (commands : List Command) :
    part (s.run commands).1 = commands.foldl f (part s) := by
  induction commands generalizing s with
  | nil => rfl
  | cons c rest ih => rw [run_cons, ih, h, List.foldl_cons]

theorem profile_run (s : Session) (commands : List Command) :
    (s.run commands).1.profile = commands.foldl reprofile s.profile :=
  run_foldl profile profile_step s commands

theorem store_run (s : Session) (commands : List Command) :
    (s.run commands).1.store = commands.foldl restock s.store :=
  run_foldl store store_step s commands

/-- At an address the store has what was last inserted there, unless it has been removed since. -/
theorem get?_store_run (id : Path) (s : Session) (commands : List Command) :
    (s.run commands).1.store.get? id = commands.foldl (relocate id) (s.store.get? id) :=
  run_foldl (fun s => s.store.get? id) (get?_store_step id) s commands

/-- The text of a session is the one last written. -/
theorem text_run (s : Session) (commands : List Command) :
    (s.run commands).1.text = (s.run commands).2.foldl rewritten s.text := by
  induction commands generalizing s with
  | nil => rfl
  | cons c rest ih => rw [run_cons, ih, text_step, List.foldl_cons]

theorem registry_step (s : Session) (c : Command) :
    (s.step c).1.profile.registry = s.profile.registry := by
  rw [profile_step]
  cases c <;> rfl

theorem registry_run (s : Session) (commands : List Command) :
    (s.run commands).1.profile.registry = s.profile.registry := by
  induction commands generalizing s with
  | nil => rfl
  | cons c rest ih => rw [run_cons, ih, registry_step]

/-! ## What a run preserves -/

/-- What a session keeps could have been built by insertion: values with distinct keys, and a store
with distinct addresses. -/
structure Sound (s : Session) : Prop where
  value : s.value.Keyed
  artifact : s.artifact.value.Keyed
  store : s.store.Distinct

/-- What a command hands over has distinct keys. -/
def HandsKeyed : Command → Prop
  | .encode _ value => ∀ v, value = some v → v.Keyed
  | .set _ new => new.Keyed
  | .fetch artifact => ∀ a, artifact = some a → a.value.Keyed
  | .deploy artifact => ∀ a, artifact = some a → a.value.Keyed
  | _ => True

theorem sound_start (p : Profile) (artifacts : List Artifact) :
    Sound { profile := p, store := .ofList artifacts } where
  value := .object List.nodup_nil nofun
  artifact := .object List.nodup_nil nofun
  store := Store.distinct_ofList artifacts

theorem Sound.handed (h : s.Sound) (hc : HandsKeyed c) : (s.handed c).Sound := by
  cases c with
  | encode kind value =>
    cases value with
    | none => exact h
    | some v => exact ⟨hc v rfl, h.artifact, h.store⟩
  | fetch artifact =>
    cases artifact with
    | none => exact h
    | some a => exact ⟨h.value, hc a rfl, h.store⟩
  | deploy artifact =>
    cases artifact with
    | none => exact ⟨h.value, h.value, h.store⟩
    | some a => exact ⟨h.value, hc a rfl, h.store⟩
  | _ => exact h

theorem Sound.step (h : s.Sound) (hr : s.profile.registry.WellKeyed) (hc : HandsKeyed c) :
    (s.step c).1.Sound := by
  have hhanded := h.handed hc
  obtain ⟨outcome, s', hperforms, hs⟩ | ⟨fault, -, hs⟩ := s.step_cases c
  · rw [hs]
    cases hperforms with
    | configure settings => exact ⟨h.value, h.artifact, h.store⟩
    | rename convention => exact ⟨h.value, h.artifact, h.store⟩
    | insert a => exact ⟨h.value, h.artifact, h.store.insert a⟩
    | remove id => exact ⟨h.value, h.artifact, h.store.erase id⟩
    | decode hd => exact ⟨Profile.keyed_of_decode hd, h.artifact, h.store⟩
    | encode _ => exact ⟨hhanded.value, h.artifact, h.store⟩
    | set hv => exact ⟨h.value.set? hc hv, h.artifact, h.store⟩
    | unset hv => exact ⟨h.value.unset? hv, h.artifact, h.store⟩
    | fetch ha =>
      obtain ⟨-, text, d, -, hd, rfl⟩ := Profile.unpack_eq_ok_iff.1 ha
      have hdecoded := (Profile.keyed_of_decode hd).object_fields
      have hkeyed := keyed_unpackedFields hhanded.artifact hdecoded
      exact ⟨hkeyed, hkeyed, h.store⟩
    | deploy ha =>
      obtain ⟨-, text, -, rfl⟩ := Profile.pack_eq_ok_iff.1 ha
      have hkeyed := keyed_packedFields hhanded.artifact text
      exact ⟨hkeyed, hkeyed, h.store⟩
    | synthesize _ => exact ⟨hr.synthesize _, h.artifact, h.store⟩
  · rw [hs]
    exact hhanded

theorem Sound.run (h : s.Sound) (hr : s.profile.registry.WellKeyed) {commands : List Command}
    (hc : ∀ c ∈ commands, HandsKeyed c) : (s.run commands).1.Sound := by
  induction commands generalizing s with
  | nil => exact h
  | cons c rest ih =>
    have hstep := h.step hr (hc c List.mem_cons_self)
    rw [← registry_step s c] at hr
    exact ih hstep hr fun c hm => hc c (List.mem_cons_of_mem _ hm)

/-! ## Refused commands -/

/-- A command hands something over that is kept even if it is refused. -/
def handsOver : Command → Bool
  | .encode _ value => value.isSome
  | .fetch artifact => artifact.isSome
  | .deploy _ => true
  | _ => false

theorem handed_of_not_handsOver (h : handsOver c = false) : s.handed c = s := by
  cases c with
  | encode kind value =>
    cases value with
    | none => rfl
    | some v => cases h
  | fetch artifact =>
    cases artifact with
    | none => rfl
    | some a => cases h
  | deploy artifact => cases h
  | _ => rfl

/-- The commands of a run that are performed. -/
def performed (s : Session) : List Command → List Command
  | [] => []
  | c :: rest =>
    if (s.step c).2.isOk then c :: (s.step c).1.performed rest else (s.step c).1.performed rest

/-- Without the refused commands, a run answers the same otherwise and ends in the same session. -/
theorem run_performed {commands : List Command} (h : ∀ c ∈ commands, handsOver c = false) :
    s.run (s.performed commands) = ((s.run commands).1, (s.run commands).2.filter Except.isOk) := by
  induction commands generalizing s with
  | nil => rfl
  | cons c rest ih =>
    have hrest := ih (s := (s.step c).1) fun c hm => h c (List.mem_cons_of_mem _ hm)
    rw [performed, run_cons]
    cases hanswer : (s.step c).2 with
    | ok outcome =>
      have hok : Except.isOk (.ok outcome : Except CommandFault Outcome) = true := rfl
      rw [if_pos hok, run_cons, hrest, hanswer, List.filter_cons_of_pos hok]
    | error fault =>
      have hrefused : ¬ Except.isOk (.error fault : Except CommandFault Outcome) = true := nofun
      have hsame : (s.step c).1 = s :=
        (step_refused hanswer).trans (handed_of_not_handsOver (h c List.mem_cons_self))
      rw [hsame] at hrest ⊢
      rw [if_neg hrefused, hrest, List.filter_cons_of_neg hrefused]

/-! ## Setting back -/

/-- The command that gives a field what it held. -/
def restore (path : List String) : Option Value → Command
  | some old => .set path old
  | none => .unset path

theorem step_restore (h : s.value.set? path new = some (v, former)) :
    ({ s with value := v } : Session).step (restore path former) =
      (s, .ok (.former (some new))) := by
  cases former with
  | some old => exact (Performs.set (Value.set?_undone h)).step_eq
  | none => exact (Performs.unset (Value.set?_undone_of_none h)).step_eq

/-- The commands that set back the fields that are set one after the other, the last one first. -/
def restoring (s : Session) : List (List String × Value) → List Command
  | [] => []
  | (path, new) :: rest =>
    match s.value.set? path new with
    | some (v, former) => ({ s with value := v } : Session).restoring rest ++ [restore path former]
    | none => s.restoring rest

/-- However many fields are set, they can be set back: the session is what it was. -/
theorem run_restoring (s : Session) (edits : List (List String × Value)) :
    ((s.run (edits.map fun e => .set e.1 e.2)).1.run (s.restoring edits)).1 = s := by
  induction edits generalizing s with
  | nil => rfl
  | cons e rest ih =>
    obtain ⟨path, new⟩ := e
    rw [List.map_cons, run_cons, restoring, step]
    cases h : s.value.set? path new with
    | none => exact ih s
    | some changed =>
      obtain ⟨v, former⟩ := changed
      have hrest := ih { s with value := v }
      rw [edited, run_append, hrest, run_cons, step_restore h]
      rfl

end Session

end TaggedMarkup
