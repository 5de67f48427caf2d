import TaggedMarkup.Proofs.Markup.Reading
/-!
# The depth limit

The limit is compared with the number of open elements where a tag opens another one, and nowhere
else. So a higher limit reads the same until the lower one is reached, and no element of what is
read stands deeper than the limit.
-/
namespace TaggedMarkup

open Markup

namespace Tree

/-- Attributes and the text beside children are entries of an element but no elements in it. -/
def isData (key : String) : Tree → Bool
  | text t => Marker.isAttribute key || key == Marker.text && !t.isEmpty
  | _ => false

mutual

/-- How deep elements are nested in an element, or at most in those of a list. -/
def nesting : Tree → Nat
  | text _ => 0
  | map entries => nestingOfEntries entries
  | list items => nestingOfItems items

def nestingOfItems : List Tree → Nat
  | [] => 0
  | t :: rest => max t.nesting (nestingOfItems rest)

def nestingOfEntries : List (String × Tree) → Nat
  | [] => 0
  | (key, t) :: rest => max (if t.isData key then 0 else t.nesting + 1) (nestingOfEntries rest)

end

/-- What an entry adds to the nesting of its element. -/
def entryNesting (key : String) (t : Tree) : Nat := if t.isData key then 0 else t.nesting + 1

theorem nestingOfItems_le_iff {items : List Tree} {m : Nat} :
    nestingOfItems items ≤ m ↔ ∀ t ∈ items, t.nesting ≤ m := by
  induction items with
  | nil => simp [nestingOfItems]
  | cons t rest ih => rw [nestingOfItems, Nat.max_le, ih, List.forall_mem_cons]

theorem nestingOfEntries_le_iff {entries : Entries Tree} {m : Nat} :
    nestingOfEntries entries ≤ m ↔ ∀ key t, (key, t) ∈ entries → t.entryNesting key ≤ m := by
  induction entries with
  | nil => simp [nestingOfEntries]
  | cons entry rest ih =>
    obtain ⟨key, t⟩ := entry
    rw [Entries.forall_mem_cons, nestingOfEntries, Nat.max_le, ih]
    rfl

theorem entryNesting_le {entries : Entries Tree} {key : String} {t : Tree}
    (h : (key, t) ∈ entries) : t.entryNesting key ≤ (map entries).nesting :=
  nestingOfEntries_le_iff.1 (Nat.le_refl _) key t h

theorem nesting_le_of_mem_elements {t u : Tree} (h : u ∈ t.elements) : u.nesting ≤ t.nesting := by
  cases t with
  | list items => exact nestingOfItems_le_iff.1 (Nat.le_refl _) u h
  | text t => rw [List.mem_singleton.1 h]
  | map entries => rw [List.mem_singleton.1 h]

theorem nesting_of_isData {key : String} {t : Tree} (h : t.isData key = true) : t.nesting = 0 := by
  cases t with
  | text t => rw [nesting]
  | _ => cases h

/-- Data is less deep than any element, so an element that joins it decides. -/
theorem nesting_le_of_entryNesting {key : String} {t : Tree} {m : Nat}
    (h : t.entryNesting key ≤ m + 1) : t.nesting ≤ m := by
  unfold entryNesting at h
  split at h
  · next hdata => simp [nesting_of_isData hdata]
  · omega

theorem entryNesting_eq {key : String} {t : Tree} (hk : Marker.isAttribute key = false)
    (ht : key ≠ Marker.text) : t.entryNesting key = t.nesting + 1 := by
  have hdata : t.isData key = false := by cases t <;> simp [isData, hk, ht]
  simp [entryNesting, hdata]

theorem entryNesting_le_succ (key : String) (t : Tree) : t.entryNesting key ≤ t.nesting + 1 := by
  unfold entryNesting
  split <;> omega

/-- An element as it is read: lists stand for the repeated children of a name and nowhere else. -/
inductive IsElement : Tree → Prop
  | text (t : String) : IsElement (.text t)
  | map {entries : Entries Tree}
      (each : ∀ key t, (key, t) ∈ entries → ∀ u ∈ t.elements, IsElement u) :
      IsElement (.map entries)

theorem IsElement.elements_eq {t : Tree} (h : t.IsElement) : t.elements = [t] := by
  cases h <;> rfl

theorem IsElement.of_mem_elements {t u : Tree} (h : t.IsElement) (hu : u ∈ t.elements) :
    u.IsElement := by
  rw [h.elements_eq, List.mem_singleton] at hu
  exact hu ▸ h

end Tree

namespace Markup

/-! ## Putting elements in -/

section

variable {entries : Entries Tree} {m : Nat}

theorem nesting_insert_le (h : Tree.nestingOfEntries entries ≤ m) {key : String} {t : Tree}
    (ht : t.entryNesting key ≤ m) : Tree.nestingOfEntries (Entries.insert entries key t) ≤ m := by
  rw [Tree.nestingOfEntries_le_iff] at h ⊢
  intro k u hu
  rcases Entries.mem_insert hu with hu | ⟨rfl, rfl⟩
  · exact h k u hu
  · exact ht

theorem nesting_appendChild_le (h : Tree.nestingOfEntries entries ≤ m) (name : String) {t : Tree}
    (ht : t.nesting + 1 ≤ m) : Tree.nestingOfEntries (appendChild entries name t) ≤ m := by
  obtain ⟨n, rfl⟩ : ∃ n, m = n + 1 := ⟨m - 1, by omega⟩
  have hput : ∀ u : Tree, u.nesting ≤ n →
      Tree.nestingOfEntries (Entries.insert entries name u) ≤ n + 1 := fun u hu =>
    nesting_insert_le h (Nat.le_trans (u.entryNesting_le_succ name) (Nat.succ_le_succ hu))
  rcases appendChild_cases entries name t with he | ⟨old, hold, he⟩
  · rw [he]
    exact hput t (by omega)
  · rw [he]
    have hnesting : old.nesting ≤ n :=
      Tree.nesting_le_of_entryNesting (Tree.nestingOfEntries_le_iff.1 h name old hold)
    refine hput _ (Tree.nestingOfItems_le_iff.2 (List.forall_mem_append.2 ⟨fun u hu => ?_, ?_⟩))
    · exact Nat.le_trans (Tree.nesting_le_of_mem_elements hu) hnesting
    · rw [List.forall_mem_singleton]
      omega

theorem nesting_ofTag (name : String) (attributes : Entries String) :
    Tree.nestingOfEntries (Frame.ofTag name attributes).entries = 0 := by
  refine Nat.le_zero.1 (Tree.nestingOfEntries_le_iff.2 fun key t hm => ?_)
  obtain ⟨a, -, rfl, rfl⟩ := exists_of_mem_ofTag hm
  simp [Tree.entryNesting, Tree.isData, Marker.isAttribute, Marker.attributeName?_attributeKey]

/-- The text that goes with children is no element. -/
theorem nesting_close_le (f : Frame) : f.close.nesting ≤ Tree.nestingOfEntries f.entries := by
  unfold Frame.close
  split
  · rw [Tree.nesting]
    exact Nat.zero_le _
  · split
    · rw [Tree.nesting]
    · next htext =>
      rw [Tree.nesting]
      refine nesting_insert_le (Nat.le_refl _) ?_
      simp [Tree.entryNesting, Tree.isData, htext]

end

/-! ## The elements of what is read -/

/-- Each entry is an element or a list of elements. -/
def HoldElements (entries : Entries Tree) : Prop :=
  ∀ key t, (key, t) ∈ entries → ∀ u ∈ t.elements, u.IsElement

theorem HoldElements.insert {entries : Entries Tree} (h : HoldElements entries) (key : String)
    {t : Tree} (ht : ∀ u ∈ t.elements, u.IsElement) :
    HoldElements (Entries.insert entries key t) := by
  intro k u hm
  rcases Entries.mem_insert hm with hm | ⟨-, rfl⟩
  · exact h k u hm
  · exact ht

theorem HoldElements.appendChild {entries : Entries Tree} (h : HoldElements entries)
    (name : String) {t : Tree} (ht : t.IsElement) : HoldElements (appendChild entries name t) := by
  rcases appendChild_cases entries name t with he | ⟨old, hold, he⟩
  · rw [he]
    exact h.insert name fun u hu => ht.of_mem_elements hu
  · rw [he]
    exact h.insert name (List.forall_mem_append.2 ⟨h _ _ hold, by simpa using ht⟩)

theorem holdElements_ofTag (name : String) (attributes : Entries String) :
    HoldElements (Frame.ofTag name attributes).entries := by
  intro key t ht
  obtain ⟨a, -, -, rfl⟩ := exists_of_mem_ofTag ht
  exact fun u hu => List.mem_singleton.1 hu ▸ .text _

theorem HoldElements.close {f : Frame} (h : HoldElements f.entries) : f.close.IsElement := by
  unfold Frame.close
  split
  · exact .text _
  · split
    · exact .map h
    · exact .map (h.insert Marker.text fun u hu => List.mem_singleton.1 hu ▸ .text _)

theorem kept_holdElements : Kept (fun _ => True) (fun _ => True) Tree.IsElement HoldElements where
  nil := by simp [HoldElements]
  opening name attributes _ := ⟨trivial, holdElements_ofTag name attributes⟩
  append _ name _ h _ ht := h.appendChild name ht
  close _ h := h.close

theorem isElement_of_read {limit : Nat} {text : String} {t : Tree} (h : read limit text = .ok t) :
    t.IsElement := by
  obtain ⟨entries, rfl, -, hentries⟩ := kept_holdElements.read (fun _ _ => trivial) h
  exact .map hentries

/-! ## Elements within the limit -/

namespace Reader

/-- What has been gathered in each open element is within the limit, counted from its own depth. -/
def Within (limit : Nat) : List Frame → Prop
  | [] => True
  | f :: rest => Tree.nestingOfEntries f.entries + rest.length + 1 ≤ limit ∧ Within limit rest

variable {limit : Nat} {r s : Reader}

theorem within_place {top : Entries Tree} {stack : List Frame} (hs : Within limit stack)
    (ht : Tree.nestingOfEntries top ≤ limit) (name : String) {t : Tree}
    (h : t.nesting + stack.length + 1 ≤ limit) :
    Within limit (place top name t stack).stack ∧
      Tree.nestingOfEntries (place top name t stack).top ≤ limit := by
  cases stack with
  | nil => exact ⟨trivial, nesting_appendChild_le ht name (by simpa using h)⟩
  | cons f rest =>
    obtain ⟨hf, hrest⟩ := hs
    rw [List.length_cons] at h
    have hchild : Tree.nestingOfEntries (appendChild f.entries name t) ≤ limit - rest.length - 1 :=
      nesting_appendChild_le (by omega) name (by omega)
    refine ⟨⟨?_, hrest⟩, ht⟩
    show Tree.nestingOfEntries (appendChild f.entries name t) + rest.length + 1 ≤ limit
    omega

theorem within_openTag {name : String} {attributes : Attributes} {f : Frame}
    (h : r.openTag limit name attributes = .ok f) :
    Tree.nestingOfEntries f.entries + r.stack.length + 1 ≤ limit := by
  obtain ⟨hlimit, pairs, -, rfl⟩ := openTag_eq_ok_iff.1 h
  rw [nesting_ofTag]
  omega

theorem within_appendText {outside : Fault} {text : Option String} (hs : Within limit r.stack)
    (h : r.appendText outside text = .ok s) : Within limit s.stack ∧ s.top = r.top := by
  obtain ⟨f, stack, run, hstack, -, rfl⟩ := appendText_eq_ok_iff.1 h
  rw [hstack] at hs
  exact ⟨hs, rfl⟩

theorem within_step {t : Token} (hs : Within limit r.stack)
    (ht : Tree.nestingOfEntries r.top ≤ limit) (h : r.step limit t = .ok s) :
    Within limit s.stack ∧ Tree.nestingOfEntries s.top ≤ limit := by
  cases t with
  | opening name attributes =>
    obtain ⟨f, hf, he⟩ := bind_eq_ok_iff.1 h
    obtain rfl := pure_eq_ok_iff.1 he
    exact ⟨⟨within_openTag hf, hs⟩, ht⟩
  | selfClosing name attributes =>
    obtain ⟨f, hf, he⟩ := bind_eq_ok_iff.1 h
    obtain rfl := pure_eq_ok_iff.1 he
    have hclose := nesting_close_le f
    have hopen := within_openTag hf
    exact within_place hs ht f.name (by omega)
  | closing name =>
    simp only [step] at h
    split at h
    · next f rest hstack =>
      split at h
      · obtain rfl := Except.ok.inj h
        rw [hstack] at hs
        obtain ⟨hf, hrest⟩ := hs
        have hclose := nesting_close_le f
        exact within_place hrest ht f.name (by omega)
      · cases h
    · cases h
  | characters text =>
    obtain ⟨hstack, htop⟩ := within_appendText hs h
    exact ⟨hstack, htop ▸ ht⟩
  | verbatim text =>
    obtain ⟨hstack, htop⟩ := within_appendText hs h
    exact ⟨hstack, htop ▸ ht⟩
  | skipped => exact Except.ok.inj h ▸ ⟨hs, ht⟩
  | malformed => cases h

theorem within_run (tokens : List Token) (hs : Within limit r.stack)
    (ht : Tree.nestingOfEntries r.top ≤ limit) (h : tokens.foldlM (step limit) r = .ok s) :
    Tree.nestingOfEntries s.top ≤ limit := by
  induction tokens generalizing r with
  | nil => exact pure_eq_ok_iff.1 h ▸ ht
  | cons t rest ih =>
    rw [List.foldlM_cons] at h
    obtain ⟨next, hnext, hrest⟩ := bind_eq_ok_iff.1 h
    obtain ⟨hstack, htop⟩ := within_step hs ht hnext
    exact ih hstack htop hrest

/-! ## A higher limit -/

variable {limit' : Nat}

theorem openTag_of_le (h : limit ≤ limit') (name : String) (attributes : Attributes) :
    r.openTag limit name attributes = .error (.tooDeep limit) ∨
      r.openTag limit name attributes = r.openTag limit' name attributes := by
  unfold openTag
  by_cases hdeep : limit ≤ r.stack.length
  · exact .inl (if_pos hdeep)
  · right
    rw [if_neg hdeep, if_neg (by omega)]

/-- One token reads the same unless it reaches the lower limit. -/
theorem step_of_limit_le (h : limit ≤ limit') (t : Token) :
    r.step limit t = .error (.tooDeep limit) ∨ r.step limit t = r.step limit' t := by
  cases t with
  | opening name attributes | selfClosing name attributes =>
    simp only [step]
    rcases openTag_of_le (r := r) h name attributes with hdeep | heq
    · exact .inl (by rw [hdeep]; rfl)
    · exact .inr (by rw [heq])
  | _ => exact .inr rfl

theorem run_of_limit_le (h : limit ≤ limit') (tokens : List Token) (r : Reader) :
    tokens.foldlM (step limit) r = .error (.tooDeep limit) ∨
      tokens.foldlM (step limit) r = tokens.foldlM (step limit') r := by
  induction tokens generalizing r with
  | nil => exact .inr rfl
  | cons t rest ih =>
    simp only [List.foldlM_cons]
    rcases step_of_limit_le (r := r) h t with hdeep | heq
    · exact .inl (by rw [hdeep]; rfl)
    · rw [← heq]
      cases r.step limit t with
      | error fault => exact .inr rfl
      | ok next => exact ih next

end Reader

theorem read_of_limit_le {limit limit' : Nat} (h : limit ≤ limit') (text : String) :
    read limit text = .error (.tooDeep limit) ∨ read limit text = read limit' text := by
  unfold read
  rcases Reader.run_of_limit_le h (Token.ofDocument text) Reader.start with hdeep | heq
  · exact .inl (by rw [hdeep]; rfl)
  · exact .inr (by rw [heq])

theorem nesting_le_of_read {limit : Nat} {text : String} {t : Tree}
    (h : read limit text = .ok t) : t.nesting ≤ limit := by
  obtain ⟨top, hrun, -, rfl⟩ := read_eq_ok_iff.1 h
  rw [Tree.nesting]
  exact Reader.within_run (r := Reader.start) _ trivial (Nat.zero_le limit) hrun

end Markup

end TaggedMarkup
