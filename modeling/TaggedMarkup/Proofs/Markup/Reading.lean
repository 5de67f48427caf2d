import TaggedMarkup.Markup.Reader
import TaggedMarkup.Proofs.Encoding.Inversion
import TaggedMarkup.Proofs.Tree.NormalForm
/-!
# Trees that are read

Reading gathers attributes, children and text into entries with distinct keys, and leaves no empty
text. A tree is regular if this is so at every depth. The names of a document have to be names:
tags are read whatever they are made of.
-/
namespace TaggedMarkup

open Markup

/-- Entries have distinct keys, attributes have names, and character data is there or left out. It does
not stand alone. -/
inductive Tree.Regular : Tree → Prop
  | text (t : String) : Regular (.text t)
  | list {items : List Tree} (each : ∀ t ∈ items, Regular t) : Regular (.list items)
  | map {entries : Entries Tree} (distinct : entries.Distinct)
      (names : ∀ key t name, (key, t) ∈ entries → Marker.attributeName? key = some name →
        IsName name)
      (data : ∀ t, (Marker.text, t) ∈ entries → ∃ v, t = .text v ∧ v ≠ "")
      (parts : ∃ key ∈ Entries.keys entries, key ≠ Marker.text)
      (each : ∀ key t, (key, t) ∈ entries → Regular t) : Regular (.map entries)

theorem Tree.Regular.of_mem_elements {t u : Tree} (h : t.Regular) (hu : u ∈ t.elements) :
    u.Regular := by
  cases t with
  | list items =>
    cases h with
    | list each => exact each u hu
  | text | map => exact List.mem_singleton.1 hu ▸ h

namespace Markup

/-- The names of a tag and its attributes are made of the characters of names. -/
def Token.Named : Token → Prop
  | opening name attributes | selfClosing name attributes =>
    (∀ c ∈ name.toList, isNameChar c = true) ∧
      ∀ pairs, attributes = some pairs → ∀ a ∈ pairs, IsName a.1
  | _ => True

instance (token : Token) : Decidable token.Named :=
  match token with
  | .opening name attributes | .selfClosing name attributes =>
    decidable_of_iff (name.toList.all isNameChar = true ∧
      (attributes.all fun pairs => pairs.all fun a => decide (IsName a.1)) = true)
      (by simp [Token.Named, Option.all_eq_true])
  | .closing _ | .characters _ | .verbatim _ | .skipped | .malformed => isTrue trivial

theorem key_of_isNameChar {name : String} (h : ∀ c ∈ name.toList, isNameChar c = true) :
    name ≠ Marker.text ∧ Marker.attributeName? name = none := by
  constructor
  · rintro rfl
    exact absurd (h '#' (by decide)) (by decide)
  · unfold Marker.attributeName?
    split
    · next rest hrest => exact absurd (h '@' (by simp [hrest])) (by decide)
    · rfl

/-- One more child stands alone, or behind the elements that its name has. -/
theorem appendChild_cases (entries : Entries Tree) (name : String) (t : Tree) :
    appendChild entries name t = Entries.insert entries name t ∨ ∃ old, (name, old) ∈ entries ∧
      appendChild entries name t = Entries.insert entries name (.list (old.elements ++ [t])) := by
  unfold appendChild
  split
  · exact .inl rfl
  · next items hitems => exact .inr ⟨_, Entries.mem_of_get?_eq_some hitems, rfl⟩
  · next first hlist hfirst =>
    refine .inr ⟨first, Entries.mem_of_get?_eq_some hfirst, ?_⟩
    cases first with
    | list items => exact absurd rfl (hlist items)
    | _ => rfl

/-- The entries of a tag are those of its attributes. -/
theorem exists_of_mem_ofTag {name key : String} {attributes : Entries String} {t : Tree}
    (h : (key, t) ∈ (Frame.ofTag name attributes).entries) :
    ∃ a ∈ attributes, key = Marker.attributeKey a.1 ∧ t = .text a.2 := by
  rcases Entries.mem_extend h with h | h
  · cases h
  · obtain ⟨a, ha, he⟩ := List.mem_map.1 h
    obtain ⟨rfl, rfl⟩ := Prod.mk.inj he
    exact ⟨a, ha, rfl, rfl⟩

/-- The entries of an element that may get further children. -/
structure Gathered (entries : Entries Tree) : Prop where
  distinct : entries.Distinct
  names : ∀ key t name, (key, t) ∈ entries → Marker.attributeName? key = some name → IsName name
  data : Marker.text ∉ entries.keys
  each : ∀ key t, (key, t) ∈ entries → t.Regular

theorem gathered_nil : Gathered [] := ⟨List.nodup_nil, by simp, by simp, by simp⟩

theorem Gathered.insert {entries : Entries Tree} (h : Gathered entries) {key : String} {t : Tree}
    (hn : ∀ name, Marker.attributeName? key = some name → IsName name) (hk : key ≠ Marker.text)
    (ht : t.Regular) : Gathered (Entries.insert entries key t) := by
  refine ⟨Entries.distinct_insert h.distinct _ _, fun k u name hm ha => ?_, fun hm => ?_,
    fun k u hm => ?_⟩
  · rcases Entries.mem_insert hm with hm | ⟨rfl, -⟩
    · exact h.names k u name hm ha
    · exact hn name ha
  · obtain ⟨u, hu⟩ := Entries.exists_of_mem_keys hm
    rcases Entries.mem_insert hu with hu | ⟨he, -⟩
    · exact h.data (Entries.mem_keys_of_mem hu)
    · exact hk he.symm
  · rcases Entries.mem_insert hm with hm | ⟨-, rfl⟩
    · exact h.each k u hm
    · exact ht

theorem Gathered.appendChild {entries : Entries Tree} (h : Gathered entries) {name : String}
    (hn : ∀ c ∈ name.toList, isNameChar c = true) {t : Tree} (ht : t.Regular) :
    Gathered (appendChild entries name t) := by
  obtain ⟨hk, hattribute⟩ := key_of_isNameChar hn
  have hinsert : ∀ u : Tree, u.Regular → Gathered (Entries.insert entries name u) := by
    intro u hu
    exact h.insert (by simp [hattribute]) hk hu
  rcases appendChild_cases entries name t with he | ⟨old, hold, he⟩
  · rw [he]
    exact hinsert t ht
  · rw [he]
    refine hinsert _ (.list (List.forall_mem_append.2 ⟨fun u hu => ?_, by simpa using ht⟩))
    exact (h.each _ _ hold).of_mem_elements hu

theorem gathered_attributes (pairs : List (String × Tree))
    (h : ∀ a ∈ pairs, (∃ name, a.1 = Marker.attributeKey name ∧ IsName name) ∧ a.2.Regular)
    {entries : Entries Tree} (he : Gathered entries) : Gathered (Entries.extend entries pairs) := by
  induction pairs generalizing entries with
  | nil => exact he
  | cons a rest ih =>
    obtain ⟨⟨name, hkey, hname⟩, hregular⟩ := h a List.mem_cons_self
    refine ih (fun b hb => h b (List.mem_cons_of_mem _ hb)) (he.insert ?_ ?_ hregular)
    · intro other hother
      rw [hkey, Marker.attributeName?_attributeKey] at hother
      exact Option.some.inj hother ▸ hname
    · intro htext
      have hattribute := Marker.attributeName?_attributeKey name
      rw [← hkey, htext] at hattribute
      exact absurd hattribute (by simp [show Marker.attributeName? Marker.text = none by decide])

/-- Entries that get no further children. -/
theorem Gathered.regular {entries : Entries Tree} (h : Gathered entries) (hne : entries ≠ []) :
    (Tree.map entries).Regular := by
  obtain ⟨a, ha⟩ := List.exists_mem_of_ne_nil _ hne
  have hkey : a.1 ∈ entries.keys := Entries.mem_keys_of_mem ha
  exact .map h.distinct h.names (fun t ht => absurd (Entries.mem_keys_of_mem ht) h.data)
    ⟨a.1, hkey, fun htext => h.data (htext ▸ hkey)⟩ h.each

/-! ## Open elements -/

/-- A finished element. -/
theorem Gathered.close {f : Frame} (hg : Gathered f.entries) : f.close.Regular := by
  unfold Frame.close
  split
  · exact .text _
  · next hentries =>
    have hentries : f.entries ≠ [] := by simpa using hentries
    split
    · exact hg.regular hentries
    · next htext =>
      have hne : f.text ≠ "" := by simpa using htext
      rw [Entries.insert_of_not_mem hg.data]
      have hmem : ∀ key t, (key, t) ∈ f.entries ++ [(Marker.text, Tree.text f.text)] →
          (key, t) ∈ f.entries ∨ key = Marker.text ∧ t = .text f.text := by
        intro key t ht
        rcases List.mem_append.1 ht with ht | ht
        · exact .inl ht
        · exact .inr (Prod.mk.inj (List.mem_singleton.1 ht))
      refine .map ?_ (fun key t name ht ha => ?_) (fun t ht => ?_) ?_ fun key t ht => ?_
      · rw [← Entries.insert_of_not_mem hg.data]
        exact Entries.distinct_insert hg.distinct _ _
      · rcases hmem key t ht with ht | ⟨rfl, -⟩
        · exact hg.names key t name ht ha
        · exact absurd ha (by simp [show Marker.attributeName? Marker.text = none by decide])
      · rcases hmem _ t ht with ht | ⟨-, rfl⟩
        · exact absurd (Entries.mem_keys_of_mem ht) hg.data
        · exact ⟨f.text, rfl, hne⟩
      · obtain ⟨a, ha⟩ := List.exists_mem_of_ne_nil _ hentries
        exact ⟨a.1, Entries.mem_keys_of_mem (List.mem_append_left _ ha),
          fun htext => hg.data (htext ▸ Entries.mem_keys_of_mem ha)⟩
      · rcases hmem key t ht with ht | ⟨-, rfl⟩
        · exact hg.each key t ht
        · exact .text _

namespace Reader

variable {r s : Reader}

theorem openTag_eq_ok_iff {limit : Nat} {name : String} {attributes : Attributes} {f : Frame} :
    r.openTag limit name attributes = .ok f ↔
      r.stack.length < limit ∧ ∃ pairs, attributes = some pairs ∧ f = Frame.ofTag name pairs := by
  unfold openTag
  by_cases hdeep : limit ≤ r.stack.length
  · rw [if_pos hdeep]
    exact iff_of_false nofun fun h => absurd h.1 (Nat.not_lt.2 hdeep)
  · rw [if_neg hdeep, and_iff_right (Nat.lt_of_not_le hdeep)]
    cases attributes with
    | none => simp
    | some pairs => simp [eq_comm]

theorem appendText_eq_ok_iff {outside : Fault} {text : Option String} :
    r.appendText outside text = .ok s ↔ ∃ f stack run, r.stack = f :: stack ∧ text = some run ∧
      s = ⟨{ f with text := f.text ++ run } :: stack, r.top⟩ := by
  obtain ⟨_ | ⟨f, stack⟩, top⟩ := r
  · simp [appendText]
  · cases text with
    | none => simp [appendText]
    | some run => simp [appendText, eq_comm]

end Reader

/-- A document is read if its run ends with some elements at the top and none open. -/
theorem read_eq_ok_iff {limit : Nat} {text : String} {t : Tree} :
    read limit text = .ok t ↔ ∃ top,
      (Token.ofDocument text).foldlM (Reader.step limit) Reader.start = .ok ⟨[], top⟩ ∧
        top ≠ [] ∧ t = .map top := by
  have hfinish : ∀ r : Reader, r.finish = .ok t ↔ r.stack = [] ∧ r.top ≠ [] ∧ t = .map r.top := by
    rintro ⟨_ | ⟨f, stack⟩, top⟩
    · cases top with
      | nil => simp [Reader.finish]
      | cons e rest => simpa [Reader.finish] using eq_comm
    · simp [Reader.finish]
  rw [read, bind_eq_ok_iff]
  constructor
  · rintro ⟨⟨stack, top⟩, hrun, h⟩
    obtain ⟨rfl, htop, ht⟩ := (hfinish _).1 h
    exact ⟨top, hrun, htop, ht⟩
  · rintro ⟨top, hrun, htop, ht⟩
    exact ⟨_, hrun, (hfinish _).2 ⟨rfl, htop, ht⟩⟩

/-- A property of entries that reading keeps, where tags and the elements that are put in have the
properties that belong to it. -/
structure Kept (token : Token → Prop) (tag : String → Prop) (element : Tree → Prop)
    (gathered : Entries Tree → Prop) : Prop where
  nil : gathered []
  opening : ∀ name attributes, token (.opening name (some attributes)) ∨
    token (.selfClosing name (some attributes)) →
      tag name ∧ gathered (Frame.ofTag name attributes).entries
  append : ∀ entries name t, gathered entries → tag name → element t →
    gathered (appendChild entries name t)
  close : ∀ f : Frame, gathered f.entries → element f.close

namespace Reader

variable {token : Token → Prop} {tag : String → Prop} {element : Tree → Prop}
  {gathered : Entries Tree → Prop}

/-- The property holds of all entries gathered so far. -/
structure Keeps (tag : String → Prop) (gathered : Entries Tree → Prop) (r : Reader) : Prop where
  stack : ∀ f ∈ r.stack, tag f.name ∧ gathered f.entries
  top : gathered r.top

theorem Keeps.place (hk : Kept token tag element gathered) {top : Entries Tree}
    {stack : List Frame} (h : Keeps tag gathered ⟨stack, top⟩) {name : String} (hn : tag name)
    {t : Tree} (ht : element t) : Keeps tag gathered (place top name t stack) := by
  cases stack with
  | nil => exact ⟨by simp [Reader.place], hk.append _ _ _ h.top hn ht⟩
  | cons f stack =>
    obtain ⟨hname, hentries⟩ := h.stack f List.mem_cons_self
    refine ⟨fun g hg => ?_, h.top⟩
    rcases List.mem_cons.1 hg with rfl | hg
    · exact ⟨hname, hk.append _ _ _ hentries hn ht⟩
    · exact h.stack g (List.mem_cons_of_mem _ hg)

theorem keeps_of_openTag (hk : Kept token tag element gathered) {limit : Nat} {r : Reader}
    {name : String} {attributes : Attributes} {f : Frame}
    (ht : token (.opening name attributes) ∨ token (.selfClosing name attributes))
    (h : r.openTag limit name attributes = .ok f) : tag f.name ∧ gathered f.entries := by
  obtain ⟨-, pairs, rfl, rfl⟩ := openTag_eq_ok_iff.1 h
  exact hk.opening _ _ ht

theorem Keeps.step (hk : Kept token tag element gathered) {limit : Nat} {r s : Reader} {t : Token}
    (h : Keeps tag gathered r) (ht : token t) (hs : r.step limit t = .ok s) :
    Keeps tag gathered s := by
  have happend : ∀ outside text, r.appendText outside text = .ok s → Keeps tag gathered s := by
    intro outside text ht
    obtain ⟨f, stack, run, hstack, rfl, rfl⟩ := appendText_eq_ok_iff.1 ht
    refine ⟨fun g hg => ?_, h.top⟩
    rcases List.mem_cons.1 hg with rfl | hg
    · exact h.stack f (by simp [hstack])
    · exact h.stack g (by simp [hstack, hg])
  cases t with
  | opening name attributes =>
    obtain ⟨f, hf, he⟩ := bind_eq_ok_iff.1 hs
    obtain rfl := pure_eq_ok_iff.1 he
    refine ⟨fun g hg => ?_, h.top⟩
    rcases List.mem_cons.1 hg with rfl | hg
    · exact keeps_of_openTag hk (.inl ht) hf
    · exact h.stack g hg
  | selfClosing name attributes =>
    obtain ⟨f, hf, he⟩ := bind_eq_ok_iff.1 hs
    obtain rfl := pure_eq_ok_iff.1 he
    obtain ⟨hname, hentries⟩ := keeps_of_openTag hk (.inr ht) hf
    exact h.place hk hname (hk.close f hentries)
  | closing name =>
    simp only [Reader.step] at hs
    split at hs
    · next f stack hstack =>
      split at hs
      · obtain rfl := Except.ok.inj hs
        obtain ⟨hname, hentries⟩ := h.stack f (by simp [hstack])
        have hrest : Keeps tag gathered ⟨stack, r.top⟩ :=
          ⟨fun g hg => h.stack g (by simp [hstack, hg]), h.top⟩
        exact hrest.place hk hname (hk.close f hentries)
      · cases hs
    · cases hs
  | characters text => exact happend _ _ hs
  | verbatim text => exact happend _ _ hs
  | skipped => exact Except.ok.inj hs ▸ h
  | malformed => cases hs

theorem Keeps.run (hk : Kept token tag element gathered) {limit : Nat} (tokens : List Token)
    (ht : ∀ t ∈ tokens, token t) {r s : Reader} (h : Keeps tag gathered r)
    (hs : tokens.foldlM (Reader.step limit) r = .ok s) : Keeps tag gathered s := by
  induction tokens generalizing r with
  | nil => exact pure_eq_ok_iff.1 hs ▸ h
  | cons t rest ih =>
    rw [List.foldlM_cons] at hs
    obtain ⟨next, hnext, hrest⟩ := bind_eq_ok_iff.1 hs
    exact ih (fun u hu => ht u (List.mem_cons_of_mem _ hu))
      (h.step hk (ht t List.mem_cons_self) hnext) hrest

end Reader

/-- What reading keeps holds of the entries of a document, and there are some. -/
theorem Kept.read {token : Token → Prop} {tag : String → Prop} {element : Tree → Prop}
    {gathered : Entries Tree → Prop} (hk : Kept token tag element gathered) {limit : Nat}
    {text : String} {t : Tree} (ht : ∀ u ∈ Token.ofDocument text, token u)
    (h : Markup.read limit text = .ok t) : ∃ entries, t = .map entries ∧ entries ≠ [] ∧
      gathered entries := by
  obtain ⟨top, hrun, hne, rfl⟩ := read_eq_ok_iff.1 h
  have hkeeps : Reader.Keeps tag gathered ⟨[], top⟩ :=
    Reader.Keeps.run hk _ ht ⟨by simp [Reader.start], hk.nil⟩ hrun
  exact ⟨top, rfl, hne, hkeeps.top⟩

theorem gathered_ofTag (name : String) {attributes : Entries String}
    (ha : ∀ a ∈ attributes, IsName a.1) : Gathered (Frame.ofTag name attributes).entries := by
  refine gathered_attributes _ (fun a hm => ?_) gathered_nil
  obtain ⟨b, hb, rfl⟩ := List.mem_map.1 hm
  exact ⟨⟨b.1, rfl, ha b hb⟩, .text _⟩

theorem kept_gathered : Kept Token.Named (fun name => ∀ c ∈ name.toList, isNameChar c = true)
    Tree.Regular Gathered where
  nil := gathered_nil
  opening name attributes ht := by
    obtain ⟨hname, hpairs⟩ | ⟨hname, hpairs⟩ := ht <;>
      exact ⟨hname, gathered_ofTag name (hpairs attributes rfl)⟩
  append _ _ _ h hn ht := h.appendChild hn ht
  close _ h := h.close

/-- What is read from a document whose names are names is regular. -/
theorem regular_of_read {limit : Nat} {text : String} {t : Tree}
    (hn : ∀ token ∈ Token.ofDocument text, token.Named) (h : read limit text = .ok t) :
    t.Regular := by
  obtain ⟨entries, rfl, hne, hgathered⟩ := kept_gathered.read hn h
  exact hgathered.regular hne

end Markup

end TaggedMarkup
