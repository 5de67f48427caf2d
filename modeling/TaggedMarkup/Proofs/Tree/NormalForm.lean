import TaggedMarkup.Proofs.Entries
import TaggedMarkup.Proofs.Markup.Scanning
/-!
# Trees that can be written, and what becomes of them

A tree is writable if its names are names, its attributes and character data are texts, and its
lists hold elements. Reading it back gives its normal form: attributes first, then the children,
then one text that joins escaped and verbatim data. Texts lose the blanks at their ends, which
`trimmed` says by itself, so that `normal` is the whole story for texts without any.
-/
namespace TaggedMarkup

namespace Markup

def trimText (s : String) : String := String.ofList (trim s.toList)

/-- No blank stands at either end. -/
def Unpadded (s : String) : Prop :=
  (∀ c ∈ s.toList.head?, isSpace c = false) ∧ ∀ c ∈ s.toList.getLast?, isSpace c = false

instance (s : String) : Decidable (Unpadded s) :=
  decidable_of_iff ((s.toList.head?.all fun c => !isSpace c) = true ∧
    (s.toList.getLast?.all fun c => !isSpace c) = true) (by simp [Unpadded, Option.all_eq_true])

theorem trimText_of_unpadded {s : String} (h : Unpadded s) : trimText s = s := by
  have hdrop : s.toList.dropWhile isSpace = s.toList := by
    cases hs : s.toList with
    | nil => rfl
    | cons c rest => exact List.dropWhile_cons_of_neg (by simp [h.1 c (by simp [hs])])
  have hend : trimEnd s.toList = s.toList := by
    rw [trimEnd_eq, List.rdropWhile_eq_self_iff]
    intro hne
    simp [h.2 _ (List.getLast?_eq_some_getLast hne)]
  rw [trimText, trim, hdrop, hend, String.ofList_toList]

theorem unpadded_trimText (s : String) : Unpadded (trimText s) := by
  have hlist : (trimText s).toList = trim s.toList := String.toList_ofList
  rw [Unpadded, hlist]
  constructor
  · intro c hc
    obtain ⟨rest, hrest⟩ : trim s.toList <+: s.toList.dropWhile isSpace := by
      rw [trim, trimEnd_eq]
      exact List.rdropWhile_prefix _ _
    have hhead := List.head?_dropWhile_not isSpace s.toList
    rw [← hrest, List.head?_append, Option.mem_def.1 hc] at hhead
    simpa using hhead
  · intro c hc
    rw [trim, trimEnd_eq] at hc
    obtain ⟨hne, rfl⟩ := List.mem_getLast?_eq_getLast hc
    simpa using List.rdropWhile_last_not isSpace _ hne

theorem trimText_eq_iff {s : String} : trimText s = s ↔ Unpadded s :=
  ⟨fun h => h ▸ unpadded_trimText s, trimText_of_unpadded⟩

end Markup

open Markup

namespace Tree

def isList : Tree → Bool
  | list _ => true
  | _ => false

/-- A tree that stands for written elements of one name: an element or a run of elements. -/
inductive Writable : Tree → Prop
  | text (t : String) : Writable (.text t)
  | map {entries : Entries Tree} (distinct : entries.Distinct)
      (attributes : ∀ key t, (key, t) ∈ entries → Marker.isAttribute key = true →
        (∃ name, Marker.attributeName? key = some name ∧ IsName name) ∧ ∃ v, t = .text v)
      (data : ∀ key t, (key, t) ∈ entries → key = Marker.text ∨ key = Marker.verbatim →
        ∃ v, t = .text v)
      (names : ∀ key t, (key, t) ∈ entries → isChild key = true → IsName key)
      (children : ∀ key t, (key, t) ∈ entries → isChild key = true → Writable t) :
      Writable (.map entries)
  | list {items : List Tree} (nonempty : items ≠ []) (elements : ∀ t ∈ items, t.isList = false)
      (writable : ∀ t ∈ items, Writable t) : Writable (.list items)

mutual

/-- Decides `Writable`. -/
def isWritable : Tree → Bool
  | .text _ => true
  | .list items => !items.isEmpty && areWritable items
  | .map entries => decide (Entries.keys entries).Nodup && haveWritable entries

def areWritable : List Tree → Bool
  | [] => true
  | t :: rest => !t.isList && isWritable t && areWritable rest

def haveWritable : Entries Tree → Bool
  | [] => true
  | (key, t) :: rest =>
    (match Marker.attributeName? key with
      | some name => decide (IsName name) && t.asText?.isSome
      | none => if isChild key then decide (IsName key) && isWritable t else t.asText?.isSome) &&
      haveWritable rest

end

theorem exists_eq_text {t : Tree} (h : t.asText?.isSome = true) : ∃ v, t = .text v := by
  cases t with
  | text v => exact ⟨v, rfl⟩
  | _ => cases h

theorem isChild_iff {key : String} : isChild key = true ↔
    Marker.isAttribute key = false ∧ key ≠ Marker.text ∧ key ≠ Marker.verbatim := by
  simp [isChild, and_assoc]

mutual

theorem writable_of_isWritable (t : Tree) : t.isWritable = true →
    t.Writable := by
  match t with
  | .text t => exact fun _ => .text t
  | .list items =>
    intro h
    rw [isWritable, Bool.and_eq_true] at h
    obtain ⟨hne, hitems⟩ := h
    have heach := writable_of_areWritable items hitems
    exact .list (by simpa using hne) (fun t ht => (heach t ht).1) fun t ht => (heach t ht).2
  | .map entries =>
    intro h
    rw [isWritable, Bool.and_eq_true, decide_eq_true_eq] at h
    have heach := writable_of_haveWritable entries h.2
    exact .map h.1 (fun key t hm => (heach key t hm).1) (fun key t hm => (heach key t hm).2.1)
      (fun key t hm hk => ((heach key t hm).2.2 hk).1)
      fun key t hm hk => ((heach key t hm).2.2 hk).2

theorem writable_of_areWritable (items : List Tree) : areWritable items = true →
    ∀ t ∈ items, t.isList = false ∧ t.Writable := by
  match items with
  | [] => simp
  | t :: rest =>
    intro h
    rw [areWritable, Bool.and_eq_true, Bool.and_eq_true, Bool.not_eq_true'] at h
    intro u hu
    rcases List.mem_cons.1 hu with he | hu
    · exact he ▸ ⟨h.1.1, writable_of_isWritable t h.1.2⟩
    · exact writable_of_areWritable rest h.2 u hu

theorem writable_of_haveWritable (entries : Entries Tree) : haveWritable entries = true →
    ∀ key t, (key, t) ∈ entries →
      (Marker.isAttribute key = true →
        (∃ name, Marker.attributeName? key = some name ∧ IsName name) ∧ ∃ v, t = .text v) ∧
      (key = Marker.text ∨ key = Marker.verbatim → ∃ v, t = .text v) ∧
      (isChild key = true → IsName key ∧ t.Writable) := by
  match entries with
  | [] => simp
  | (key, t) :: rest =>
    intro h
    rw [haveWritable, Bool.and_eq_true] at h
    intro k u hm
    rcases List.mem_cons.1 hm with he | hm
    · obtain ⟨rfl, rfl⟩ := Prod.mk.inj he
      obtain ⟨h, -⟩ := h
      cases hk : Marker.attributeName? k with
      | some name =>
        rw [hk] at h
        simp only [Bool.and_eq_true, decide_eq_true_eq] at h
        have hattribute : Marker.isAttribute k = true := by simp [Marker.isAttribute, hk]
        refine ⟨fun _ => ⟨⟨name, rfl, h.1⟩, exists_eq_text h.2⟩, fun _ => exists_eq_text h.2, ?_⟩
        intro hchild
        rw [(isChild_iff.1 hchild).1] at hattribute
        cases hattribute
      | none =>
        rw [hk] at h
        simp only at h
        have hattribute : Marker.isAttribute k = false := by simp [Marker.isAttribute, hk]
        refine ⟨fun he => ?_, fun he => ?_, fun hchild => ?_⟩
        · rw [hattribute] at he
          cases he
        · have hchild : ¬ isChild k = true := fun hc => by
            rcases he with he | he
            · exact (isChild_iff.1 hc).2.1 he
            · exact (isChild_iff.1 hc).2.2 he
          rw [if_neg hchild] at h
          exact exists_eq_text h
        · rw [if_pos hchild, Bool.and_eq_true, decide_eq_true_eq] at h
          exact ⟨h.1, writable_of_isWritable u h.2⟩
    · exact writable_of_haveWritable rest h.2 k u hm

end

/-- The character data of an element, escaped before verbatim. -/
def content (entries : Entries Tree) : String :=
  (entryText? entries Marker.text).getD "" ++ (entryText? entries Marker.verbatim).getD ""

def attributes (entries : Entries Tree) : Entries Tree :=
  entries.filter fun e => Marker.isAttribute e.1

/-- The element with these attributes and children around a text. -/
def element (entries : Entries Tree) (text : String) : Tree :=
  if entries.isEmpty then .text text
  else if text.isEmpty then .map entries
  else .map (entries ++ [(Marker.text, .text text)])

/-- The children of one name; a single one stands for itself. -/
def collect : List Tree → Tree
  | [t] => t
  | ts => .list ts

mutual

def normal : Tree → Tree
  | .text t => .text t
  | .list items => collect (normalItems items)
  | .map entries => element (attributes entries ++ normalChildren entries) (content entries)

def normalItems : List Tree → List Tree
  | [] => []
  | t :: rest => normal t :: normalItems rest

def normalChildren : Entries Tree → Entries Tree
  | [] => []
  | (key, t) :: rest =>
    if isChild key then (key, normal t) :: normalChildren rest else normalChildren rest

end

mutual

/-- The tree with every text cut at its ends but attributes and verbatim text. -/
def trimmed : Tree → Tree
  | .text t => .text (trimText t)
  | .list items => .list (trimmedItems items)
  | .map entries => .map (trimmedEntries entries)

def trimmedItems : List Tree → List Tree
  | [] => []
  | t :: rest => trimmed t :: trimmedItems rest

def trimmedEntries : Entries Tree → Entries Tree
  | [] => []
  | (key, t) :: rest =>
    (key, if Marker.isAttribute key ∨ key = Marker.verbatim then t else trimmed t) ::
      trimmedEntries rest

end

mutual

/-- How deep elements nest inside. -/
def height : Tree → Nat
  | .text _ => 0
  | .list items => heightOfItems items
  | .map entries => heightOfEntries entries

def heightOfItems : List Tree → Nat
  | [] => 0
  | t :: rest => max (height t) (heightOfItems rest)

def heightOfEntries : Entries Tree → Nat
  | [] => 0
  | (key, t) :: rest =>
    if isChild key then max (height t + 1) (heightOfEntries rest) else heightOfEntries rest

end

theorem normalItems_eq (items : List Tree) : normalItems items = items.map normal := by
  induction items with
  | nil => rfl
  | cons t rest ih => rw [normalItems, ih, List.map_cons]

theorem trimmedItems_eq (items : List Tree) : trimmedItems items = items.map trimmed := by
  induction items with
  | nil => rfl
  | cons t rest ih => rw [trimmedItems, ih, List.map_cons]

theorem trimmedEntries_eq (entries : Entries Tree) :
    trimmedEntries entries = entries.map fun e =>
      (e.1, if Marker.isAttribute e.1 ∨ e.1 = Marker.verbatim then e.2 else trimmed e.2) := by
  induction entries with
  | nil => rfl
  | cons e rest ih => rw [trimmedEntries, ih, List.map_cons]

theorem isList_element (entries : Entries Tree) (text : String) :
    (element entries text).isList = false := by
  unfold element
  split
  · rfl
  · split <;> rfl

/-- A normal form is a list only where a list was. -/
theorem isList_normal_trimmed {t : Tree} (h : t.isList = false) :
    t.trimmed.normal.isList = false := by
  cases t with
  | text t => rfl
  | map entries => exact isList_element _ _
  | list items => exact Bool.noConfusion h

/-- The elements that a tree stands for. -/
def elements : Tree → List Tree
  | .list items => items
  | t => [t]

theorem collect_elements (t : Tree) :
    collect (t.elements.map fun u => u.trimmed.normal) = t.trimmed.normal := by
  cases t with
  | text t => rfl
  | map entries => rfl
  | list items =>
    rw [trimmed, normal, normalItems_eq, trimmedItems_eq, List.map_map]
    rfl

theorem Writable.isList_of_mem_elements {t u : Tree} (h : t.Writable) (hu : u ∈ t.elements) :
    u.isList = false := by
  cases h with
  | list _ elements _ => exact elements u hu
  | text t => simp_all [elements, isList]
  | map => simp_all [elements, isList]

theorem Writable.elements_ne_nil {t : Tree} (h : t.Writable) : t.elements ≠ [] := by
  cases h with
  | list nonempty _ _ => exact nonempty
  | text t => simp [elements]
  | map => simp [elements]

theorem attributes_trimmedEntries (entries : Entries Tree) :
    attributes (trimmedEntries entries) = attributes entries := by
  induction entries with
  | nil => rfl
  | cons e rest ih =>
    obtain ⟨key, t⟩ := e
    unfold attributes at ih ⊢
    cases hk : Marker.isAttribute key <;> simp [trimmedEntries, hk, ih]

theorem entryText?_trimmedEntries (entries : Entries Tree) (key : String) :
    entryText? (trimmedEntries entries) key =
      if Marker.isAttribute key ∨ key = Marker.verbatim then entryText? entries key
      else (entryText? entries key).map trimText := by
  induction entries with
  | nil => simp [entryText?, trimmedEntries]
  | cons e rest ih =>
    obtain ⟨k, t⟩ := e
    unfold entryText? at ih ⊢
    rw [trimmedEntries, Entries.get?_cons, Entries.get?_cons]
    by_cases hk : k = key
    · subst hk
      by_cases hv : Marker.isAttribute k ∨ k = Marker.verbatim
      · simp [hv]
      · cases t <;> simp [hv, trimmed, asText?]
    · rw [if_neg hk, if_neg hk, ih]

theorem content_trimmedEntries (entries : Entries Tree) :
    content (trimmedEntries entries) =
      ((entryText? entries Marker.text).map trimText).getD "" ++
        (entryText? entries Marker.verbatim).getD "" := by
  have htext : ¬ (Marker.isAttribute Marker.text = true ∨ Marker.text = Marker.verbatim) := by
    decide
  rw [content, entryText?_trimmedEntries, entryText?_trimmedEntries, if_neg htext,
    if_pos (.inr rfl)]

theorem normalChildren_trimmedEntries (entries : Entries Tree) :
    normalChildren (trimmedEntries entries) =
      (entries.filter fun e => isChild e.1).map fun e => (e.1, e.2.trimmed.normal) := by
  induction entries with
  | nil => rfl
  | cons e rest ih =>
    obtain ⟨key, t⟩ := e
    cases hk : isChild key with
    | false => simp [trimmedEntries, normalChildren, hk, ih]
    | true =>
      obtain ⟨h1, -, h2⟩ := isChild_iff.1 hk
      simp [trimmedEntries, normalChildren, hk, ih, h1, h2]

theorem height_lt_of_mem {entries : Entries Tree} {key : String} {t : Tree}
    (h : (key, t) ∈ entries) (hk : isChild key = true) :
    t.height < (Tree.map entries).height := by
  rw [height]
  induction entries with
  | nil => simp at h
  | cons e rest ih =>
    obtain ⟨k, u⟩ := e
    rw [heightOfEntries]
    rcases List.mem_cons.1 h with h | h
    · obtain ⟨rfl, rfl⟩ := Prod.mk.inj h
      rw [if_pos hk]
      omega
    · have := ih h
      split <;> omega

/-! ## Documents -/

/-- A map of elements, at least one. -/
def IsDocument (t : Tree) : Prop :=
  t.Writable ∧ ∃ entries, t = .map entries ∧ entries ≠ [] ∧
    ∀ key ∈ Entries.keys entries, isChild key = true

/-- No escaped text of an element has a blank at an end. -/
inductive TextsUnpadded : Tree → Prop
  | text {t : String} (unpadded : Unpadded t) : TextsUnpadded (.text t)
  | list {items : List Tree} (elements : ∀ t ∈ items, TextsUnpadded t) : TextsUnpadded (.list items)
  | map {entries : Entries Tree} (data : ∀ t, (Marker.text, .text t) ∈ entries → Unpadded t)
      (children : ∀ key t, (key, t) ∈ entries → isChild key = true → TextsUnpadded t) :
      TextsUnpadded (.map entries)

mutual

/-- Decides `TextsUnpadded`. -/
def isUnpadded : Tree → Bool
  | .text t => decide (Unpadded t)
  | .list items => areUnpadded items
  | .map entries => haveUnpadded entries

def areUnpadded : List Tree → Bool
  | [] => true
  | t :: rest => isUnpadded t && areUnpadded rest

def haveUnpadded : Entries Tree → Bool
  | [] => true
  | (key, t) :: rest =>
    (!(key == Marker.text || isChild key) || isUnpadded t) && haveUnpadded rest

end

mutual

theorem textsUnpadded_of_isUnpadded (t : Tree) : t.isUnpadded = true →
    t.TextsUnpadded := by
  match t with
  | .text t =>
    intro h
    rw [isUnpadded, decide_eq_true_eq] at h
    exact .text h
  | .list items =>
    intro h
    rw [isUnpadded] at h
    exact .list (textsUnpadded_of_areUnpadded items h)
  | .map entries =>
    intro h
    rw [isUnpadded] at h
    have heach := textsUnpadded_of_haveUnpadded entries h
    refine .map (fun t ht => ?_) fun key t hm hk => heach key t hm (.inr hk)
    cases heach _ _ ht (.inl rfl) with
    | text unpadded => exact unpadded

theorem textsUnpadded_of_areUnpadded (items : List Tree) : areUnpadded items = true →
    ∀ t ∈ items, t.TextsUnpadded := by
  match items with
  | [] => simp
  | t :: rest =>
    intro h
    rw [areUnpadded, Bool.and_eq_true] at h
    intro u hu
    rcases List.mem_cons.1 hu with he | hu
    · exact he ▸ textsUnpadded_of_isUnpadded t h.1
    · exact textsUnpadded_of_areUnpadded rest h.2 u hu

theorem textsUnpadded_of_haveUnpadded (entries : Entries Tree) : haveUnpadded entries = true →
    ∀ key t, (key, t) ∈ entries → key = Marker.text ∨ isChild key = true → t.TextsUnpadded := by
  match entries with
  | [] => simp
  | (key, t) :: rest =>
    intro h
    rw [haveUnpadded, Bool.and_eq_true] at h
    intro k u hm hk
    rcases List.mem_cons.1 hm with he | hm
    · obtain ⟨rfl, rfl⟩ := Prod.mk.inj he
      have hkey : (k == Marker.text || isChild k) = true := by simpa using hk
      rw [hkey] at h
      exact textsUnpadded_of_isUnpadded u h.1
    · exact textsUnpadded_of_haveUnpadded rest h.2 k u hm hk

end

/-- Trimming changes nothing where no text is padded. -/
theorem trimmed_of_textsUnpadded {t : Tree} (hw : t.Writable) (h : t.TextsUnpadded) :
    t.trimmed = t := by
  induction h with
  | text unpadded => rw [trimmed, trimText_of_unpadded unpadded]
  | @list items _ ih =>
    cases hw with
    | list _ _ writable =>
      have heach : items.map trimmed = items.map id :=
        List.map_congr_left fun t ht => ih t ht (writable t ht)
      rw [trimmed, trimmedItems_eq, heach, List.map_id]
  | @map entries hdata _ ih =>
    cases hw with
    | map _ _ data _ children =>
      rw [trimmed, trimmedEntries_eq]
      have heach : entries.map (fun e =>
          (e.1, if Marker.isAttribute e.1 ∨ e.1 = Marker.verbatim then e.2 else trimmed e.2)) =
          entries.map id := by
        refine List.map_congr_left fun e he => ?_
        obtain ⟨key, t⟩ := e
        by_cases hplain : Marker.isAttribute key = true ∨ key = Marker.verbatim
        · simp [hplain]
        · rw [not_or] at hplain
          by_cases htext : key = Marker.text
          · obtain ⟨v, rfl⟩ := data key t he (.inl htext)
            have hv := trimText_of_unpadded (hdata v (htext ▸ he))
            simp [hplain, trimmed, hv]
          · have hk : isChild key = true :=
              isChild_iff.2 ⟨by simpa using hplain.1, htext, hplain.2⟩
            simp [hplain, ih key t he hk (children key t he hk)]
      rw [heach, List.map_id]

/-- In a document there is nothing but children. -/
theorem normal_trimmed_document {entries : Entries Tree}
    (h : ∀ key t, (key, t) ∈ entries → isChild key = true) (hne : entries ≠ []) :
    (Tree.map entries).trimmed.normal =
      .map (entries.map fun e => (e.1, e.2.trimmed.normal)) := by
  have hfilter : entries.filter (fun e => isChild e.1) = entries :=
    List.filter_eq_self.2 fun e he => h e.1 e.2 he
  have hattributes : attributes entries = [] :=
    List.filter_eq_nil_iff.2 fun e he => by simp [(isChild_iff.1 (h e.1 e.2 he)).1]
  have htext : ∀ key, isChild key = false → entryText? entries key = none := by
    intro key hk
    have hget : Entries.get? entries key = none := by
      refine Entries.get?_eq_none_iff.2 fun hm => ?_
      obtain ⟨t, ht⟩ := Entries.exists_of_mem_keys hm
      simp [h key t ht] at hk
    rw [entryText?, hget]
    rfl
  have hcontent : content (trimmedEntries entries) = "" := by
    rw [content_trimmedEntries, htext _ (by decide), htext _ (by decide)]
    rfl
  rw [trimmed, normal, hcontent, attributes_trimmedEntries, hattributes,
    normalChildren_trimmedEntries, hfilter, List.nil_append, element]
  simp [hne]

end Tree

end TaggedMarkup
