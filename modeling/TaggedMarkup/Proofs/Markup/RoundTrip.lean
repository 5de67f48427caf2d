import TaggedMarkup.Proofs.Markup.Limits
/-!
# Reading undoes writing

Reading the text of a writable tree gives its normal form, in every layout and under every depth
limit that its elements keep. The induction is on the tree: what the writer puts down for an element
adds that element, in normal form, to the elements that are open, whatever text follows. The blanks
of the layout fall away with those at the ends of texts, so the general statement
`read_write_trimmed` is about trimmed trees, and trees without padded texts are a case of it.
-/
namespace TaggedMarkup

open TaggedMarkup.Tree

namespace Markup

theorem isSpace_of_mem_margin (layout : Layout) (depth : Nat) :
    ∀ c ∈ layout.margin depth, isSpace c = true := by
  intro c hc
  unfold Layout.margin at hc
  split at hc
  · rw [List.eq_of_mem_replicate hc]
    decide
  · simp at hc

theorem isSpace_of_mem_lineEnd (layout : Layout) : ∀ c ∈ layout.lineEnd, isSpace c = true := by
  intro c hc
  unfold Layout.lineEnd at hc
  split at hc
  · rw [List.mem_singleton.1 hc]
    decide
  · simp at hc

/-- Markup follows, perhaps after blanks. -/
def StartsMarkup (s : List Char) : Prop :=
  ∃ blanks rest, (∀ c ∈ blanks, isSpace c = true) ∧ s = blanks ++ '<' :: rest

theorem StartsMarkup.append_blanks {blanks s : List Char} (hb : ∀ c ∈ blanks, isSpace c = true)
    (h : StartsMarkup s) : StartsMarkup (blanks ++ s) := by
  obtain ⟨more, rest, hm, rfl⟩ := h
  refine ⟨blanks ++ more, rest, ?_, by rw [List.append_assoc]⟩
  intro c hc
  rcases List.mem_append.1 hc with hc | hc
  · exact hb c hc
  · exact hm c hc

theorem startsMarkup_cons (s : List Char) : StartsMarkup ('<' :: s) := ⟨[], s, by simp, rfl⟩

theorem startsMarkup_closeTag (name : String) (rest : List Char) :
    StartsMarkup (closeTag name ++ rest) := startsMarkup_cons _

mutual

theorem startsMarkup_writeElement (layout : Layout) (name : String) (depth : Nat) (t : Tree)
    {rest : List Char} (h : StartsMarkup rest) :
    StartsMarkup (writeElement layout name depth t rest) := by
  match t with
  | .list items => exact startsMarkup_writeItems layout name depth items h
  | .text t =>
    exact (startsMarkup_cons _).append_blanks (isSpace_of_mem_margin layout depth)
  | .map entries =>
    rw [writeElement]
    split <;> rw [List.append_assoc] <;>
      exact (startsMarkup_cons _).append_blanks (isSpace_of_mem_margin layout depth)

theorem startsMarkup_writeItems (layout : Layout) (name : String) (depth : Nat)
    (items : List Tree) {rest : List Char} (h : StartsMarkup rest) :
    StartsMarkup (writeItems layout name depth items rest) := by
  match items with
  | [] => exact h
  | t :: items =>
    exact startsMarkup_writeElement layout name depth t
      (startsMarkup_writeItems layout name depth items h)

end

theorem startsMarkup_writeChildren (layout : Layout) (depth : Nat) (entries : Entries Tree)
    {rest : List Char} (h : StartsMarkup rest) :
    StartsMarkup (writeChildren layout depth entries rest) := by
  induction entries with
  | nil => exact h
  | cons e entries ih =>
    obtain ⟨key, t⟩ := e
    rw [writeChildren]
    split
    · exact startsMarkup_writeElement layout key depth t ih
    · exact ih

/-! ## Attributes -/

/-- The names and values of the attributes that are written. -/
def attributePairs (entries : Entries Tree) : Entries String :=
  entries.filterMap fun e =>
    match Marker.attributeName? e.1, e.2.asText? with
    | some name, some v => some (name, v)
    | _, _ => none

theorem writeAttributes_eq (entries : Entries Tree) :
    writeAttributes entries = attributesText (attributePairs entries) := by
  induction entries with
  | nil => rfl
  | cons e rest ih =>
    obtain ⟨key, t⟩ := e
    unfold writeAttributes attributesText attributePairs at ih ⊢
    rw [List.flatMap_cons, ih, List.filterMap_cons]
    cases hk : Marker.attributeName? key <;> cases ht : t.asText? <;> simp [hk, ht]

theorem eq_attributeKey {key name : String} (h : Marker.attributeName? key = some name) :
    key = Marker.attributeKey name := by
  unfold Marker.attributeName? at h
  split at h
  · next rest hk =>
    rw [← Option.some.inj h, Marker.attributeKey]
    exact String.toList_inj.1 (by simp [hk])
  · cases h

/-- The pairs of a list of attributes stand for its entries. -/
theorem map_attributePairs {entries : Entries Tree}
    (h : ∀ key t, (key, t) ∈ entries → Marker.isAttribute key = true → ∃ v, t = .text v) :
    (attributePairs entries).map (fun a => (Marker.attributeKey a.1, Tree.text a.2)) =
      attributes entries := by
  induction entries with
  | nil => rfl
  | cons e rest ih =>
    obtain ⟨key, t⟩ := e
    have hrest := ih fun k u hm => h k u (List.mem_cons_of_mem _ hm)
    unfold attributePairs attributes at hrest ⊢
    cases hk : Marker.attributeName? key with
    | none => simp [Marker.isAttribute, hk, hrest]
    | some name =>
      have hattribute : Marker.isAttribute key = true := by simp [Marker.isAttribute, hk]
      obtain ⟨v, rfl⟩ := h key t (by simp) hattribute
      have htext : (Tree.text v).asText? = some v := rfl
      simp [htext, hk, hattribute, hrest, ← eq_attributeKey hk]

theorem isName_of_mem_attributePairs {entries : Entries Tree} {a : String × String}
    (h : ∀ key t, (key, t) ∈ entries → Marker.isAttribute key = true →
      ∃ name, Marker.attributeName? key = some name ∧ IsName name)
    (ha : a ∈ attributePairs entries) : IsName a.1 := by
  obtain ⟨⟨key, t⟩, hm, he⟩ := List.mem_filterMap.1 ha
  split at he
  · next name v hk _ =>
    obtain ⟨name', hk', hn⟩ := h key t hm (by simp [Marker.isAttribute, hk])
    have : name = name' := Option.some.inj (hk.symm.trans hk')
    rw [← Option.some.inj he, this]
    exact hn
  · cases he

theorem distinct_attributePairs {entries : Entries Tree} (hd : entries.Distinct)
    (h : ∀ key t, (key, t) ∈ entries → Marker.isAttribute key = true → ∃ v, t = .text v) :
    Entries.Distinct (attributePairs entries) := by
  have hkeys : (attributePairs entries).keys.map Marker.attributeKey =
      (attributes entries).keys := by
    rw [← map_attributePairs h]
    simp [Entries.keys, Function.comp_def]
  have hnodup : (attributes entries).keys.Nodup := hd.filter _
  rw [← hkeys] at hnodup
  exact hnodup.of_map

/-! ## Character data -/

section

variable {limit : Nat} {f : Frame} {stack : List Frame} {top : Entries Tree}

theorem readFrom_escape_of_startsMarkup (s : List Char) {rest : List Char} (h : StartsMarkup rest) :
    readFrom limit ⟨f :: stack, top⟩ (escape s ++ rest) =
      readFrom limit ⟨{ f with text := f.text ++ String.ofList (trim s) } :: stack, top⟩ rest := by
  obtain ⟨blanks, u, hb, rfl⟩ := h
  rw [readFrom_escape s hb, readFrom_blanks hb]

theorem startsMarkup_writeVerbatim (s rest : List Char) : StartsMarkup (writeVerbatim s ++ rest) :=
  startsMarkup_cons _

/-- The character data of an element is read as one text. -/
theorem readFrom_writeContent (entries : Entries Tree) {rest : List Char} (h : StartsMarkup rest) :
    readFrom limit ⟨f :: stack, top⟩ (writeContent entries ++ rest) =
      readFrom limit
        ⟨{ f with text := f.text ++ content (trimmedEntries entries) } :: stack, top⟩ rest := by
  rw [content_trimmedEntries, writeContent]
  cases ht : entryText? entries Marker.text with
  | none =>
    cases hv : entryText? entries Marker.verbatim with
    | none => simp
    | some v => simp [readFrom_writeVerbatim]
  | some t =>
    cases hv : entryText? entries Marker.verbatim with
    | none => simp [readFrom_escape_of_startsMarkup _ h, trimText]
    | some v =>
      simp [readFrom_escape_of_startsMarkup _ (startsMarkup_writeVerbatim _ _),
        readFrom_writeVerbatim, trimText, String.append_assoc]

end

/-! ## Elements -/

theorem Frame.close_eq {f : Frame} (h : Marker.text ∉ f.entries.keys) :
    f.close = element f.entries f.text := by
  unfold Frame.close element
  rw [Entries.insert_of_not_mem h]

/-- Finished elements of one name, one after the other. -/
def Reader.placeAll (r : Reader) (name : String) (elements : List Tree) : Reader :=
  elements.foldl (fun r t => Reader.place r.top name t r.stack) r

theorem Reader.length_stack_place (top : Entries Tree) (name : String) (t : Tree)
    (stack : List Frame) : (Reader.place top name t stack).stack.length = stack.length := by
  cases stack <;> rfl

/-- The elements of a new name become one entry, wherever they are put. -/
theorem foldl_appendChild {entries : Entries Tree} {name : String} (h : name ∉ entries.keys)
    {ts : List Tree} (hne : ts ≠ []) (hl : ∀ t ∈ ts, t.isList = false) :
    ts.foldl (fun es t => appendChild es name t) entries = entries ++ [(name, collect ts)] := by
  have happend : ∀ (t : Tree), appendChild entries name t = entries ++ [(name, t)] := by
    intro t
    rw [appendChild, Entries.get?_eq_none_iff.2 h]
    exact Entries.insert_of_not_mem h t
  have hget : ∀ u, Entries.get? (entries ++ [(name, u)]) name = some u := by
    intro u
    rw [Entries.get?_append, Entries.get?_eq_none_iff.2 h]
    simp [Entries.get?_cons]
  have hlist : ∀ (more : List Tree) (items : List Tree),
      more.foldl (fun es t => appendChild es name t) (entries ++ [(name, .list items)]) =
        entries ++ [(name, .list (items ++ more))] := by
    intro more
    induction more with
    | nil => simp
    | cons t more ih =>
      intro items
      rw [List.foldl_cons, appendChild, hget]
      simp only
      rw [Entries.insert_append_singleton h, ih, List.append_assoc]
      rfl
  match ts with
  | [] => exact absurd rfl hne
  | [t] => exact happend t
  | t :: u :: more =>
    have ht : t.isList = false := hl t (by simp)
    have hpair : appendChild (entries ++ [(name, t)]) name u =
        entries ++ [(name, .list [t, u])] := by
      rw [appendChild, hget]
      cases t with
      | list items => exact Bool.noConfusion ht
      | text t => exact Entries.insert_append_singleton h _ _
      | map es => exact Entries.insert_append_singleton h _ _
    rw [List.foldl_cons, List.foldl_cons, happend, hpair, hlist]
    rfl

theorem Reader.placeAll_frame (f : Frame) (stack : List Frame) (top : Entries Tree)
    (name : String) (ts : List Tree) :
    Reader.placeAll ⟨f :: stack, top⟩ name ts =
      ⟨{ f with entries := ts.foldl (fun es t => appendChild es name t) f.entries } :: stack,
        top⟩ := by
  induction ts generalizing f with
  | nil => rfl
  | cons t more ih => exact ih { f with entries := appendChild f.entries name t }

theorem Reader.placeAll_top (top : Entries Tree) (name : String) (ts : List Tree) :
    Reader.placeAll ⟨[], top⟩ name ts =
      ⟨[], ts.foldl (fun es t => appendChild es name t) top⟩ := by
  induction ts generalizing top with
  | nil => rfl
  | cons t more ih => exact ih (appendChild top name t)

/-- The elements that a tree stands for become one entry in normal form. -/
theorem foldl_appendChild_elements {entries : Entries Tree} {name : String}
    (h : name ∉ entries.keys) {t : Tree} (ht : t.Writable) :
    (t.elements.map fun u => u.trimmed.normal).foldl (fun es t => appendChild es name t) entries =
      entries ++ [(name, t.trimmed.normal)] := by
  rw [foldl_appendChild h (by simpa using ht.elements_ne_nil), collect_elements]
  intro u hu
  obtain ⟨w, hw, rfl⟩ := List.mem_map.1 hu
  exact isList_normal_trimmed (ht.isList_of_mem_elements hw)

theorem isAttribute_of_mem_keys_attributes {entries : Entries Tree} {key : String}
    (h : key ∈ (attributes entries).keys) : Marker.isAttribute key = true := by
  obtain ⟨t, ht⟩ := Entries.exists_of_mem_keys h
  exact (List.mem_filter.1 ht).2

theorem isChild_of_mem_keys_normalChildren {entries : Entries Tree} {key : String}
    (h : key ∈ (normalChildren (trimmedEntries entries)).keys) :
    isChild key = true ∧ key ∈ entries.keys := by
  rw [normalChildren_trimmedEntries] at h
  obtain ⟨t, ht⟩ := Entries.exists_of_mem_keys h
  obtain ⟨⟨k, u⟩, hm, he⟩ := List.mem_map.1 ht
  obtain ⟨hm, hk⟩ := List.mem_filter.1 hm
  obtain ⟨rfl, -⟩ := Prod.mk.inj he
  exact ⟨hk, Entries.mem_keys_of_mem hm⟩

/-- The frame of an element with its children in it closes to the normal form. -/
theorem close_children (name : String) (entries : Entries Tree) :
    Frame.close ⟨name, attributes entries ++ normalChildren (trimmedEntries entries),
        content (trimmedEntries entries)⟩ = normal (trimmed (.map entries)) := by
  rw [Frame.close_eq, trimmed, normal, attributes_trimmedEntries]
  rw [Entries.keys_append, List.mem_append, not_or]
  constructor
  · intro h
    exact absurd (isAttribute_of_mem_keys_attributes h) (by decide)
  · intro h
    exact absurd (isChild_of_mem_keys_normalChildren h).1 (by decide)

theorem normalChildren_trimmedEntries_eq_nil {entries : Entries Tree}
    (h : entries.any (fun e => isChild e.1) = false) :
    normalChildren (trimmedEntries entries) = [] := by
  rw [normalChildren_trimmedEntries, List.map_eq_nil_iff, List.filter_eq_nil_iff]
  intro e he hk
  rw [List.any_eq_false] at h
  exact h e he hk

/-- The frame that the opening tag of an element leaves. -/
theorem readFrom_openElement {limit : Nat} {r : Reader} {name : String} (hn : IsName name)
    {entries : Entries Tree} (h : (Tree.map entries).Writable) (hl : r.stack.length < limit)
    (rest : List Char) :
    readFrom limit r (openTag name (writeAttributes entries) ++ rest) =
      readFrom limit ⟨⟨name, attributes entries, ""⟩ :: r.stack, r.top⟩ rest := by
  cases h with
  | map distinct attributes data names children =>
    have htext := fun key t hm hk => (attributes key t hm hk).2
    have hname := fun key t hm hk => (attributes key t hm hk).1
    have hdistinct : (Tree.attributes entries).Distinct := distinct.filter _
    have hattributes : Frame.ofTag name (attributePairs entries) =
        ⟨name, Tree.attributes entries, ""⟩ := by
      rw [Frame.ofTag, map_attributePairs htext, Entries.ofPairs_eq hdistinct]
    rw [writeAttributes_eq, readFrom_openTag hn (fun a => isName_of_mem_attributePairs hname)
      (distinct_attributePairs distinct htext) hl, hattributes]

/-- The line of the character data, if there is any, is read as the text of the open element. -/
theorem readFrom_contentLine (layout : Layout) {limit : Nat} (depth : Nat) (entries : Entries Tree)
    {rest : List Char} (hrest : StartsMarkup rest) (f : Frame) (stack : List Frame)
    (top : Entries Tree) :
    readFrom limit ⟨f :: stack, top⟩ ((if hasContent entries then
        layout.margin depth ++ writeContent entries ++ layout.lineEnd else []) ++ rest) =
      readFrom limit ⟨{ f with text := f.text ++ content (trimmedEntries entries) } :: stack, top⟩
        rest := by
  have hend := isSpace_of_mem_lineEnd layout
  by_cases hd : hasContent entries = true
  · rw [if_pos hd, List.append_assoc, List.append_assoc,
      readFrom_blanks (isSpace_of_mem_margin layout depth),
      readFrom_writeContent _ (hrest.append_blanks hend), readFrom_blanks hend]
  · have hempty : content (trimmedEntries entries) = "" := by
      simp only [hasContent, Bool.or_eq_true, Option.isSome_iff_ne_none, ne_eq, not_or,
        not_not] at hd
      rw [content_trimmedEntries, hd.1, hd.2]
      rfl
    rw [if_neg hd, hempty, String.append_empty]
    rfl

/-- An element with character data only. -/
theorem readFrom_writeText (layout : Layout) {limit : Nat} {name : String} (hn : IsName name)
    (depth : Nat) (v : String) (r : Reader) (hl : r.stack.length < limit) (rest : List Char) :
    readFrom limit r (writeElement layout name depth (.text v) rest) =
      readFrom limit (r.placeAll name ((Tree.text v).elements.map fun u => u.trimmed.normal))
        rest := by
  have hattributes : ∀ a ∈ ([] : Entries String), IsName a.1 := by simp
  have hopen := readFrom_openTag hn hattributes List.nodup_nil hl
    (escape v.toList ++ (closeTag name ++ (layout.lineEnd ++ rest)))
  have hframe : Frame.ofTag name [] = ⟨name, [], ""⟩ := rfl
  rw [hframe] at hopen
  rw [writeElement, readFrom_blanks (isSpace_of_mem_margin layout depth)]
  refine hopen.trans ?_
  rw [readFrom_escape_of_startsMarkup _ (startsMarkup_closeTag name _),
    readFrom_closeTag (f := ⟨name, _, _⟩) hn, readFrom_blanks (isSpace_of_mem_lineEnd layout),
    String.empty_append]
  rfl

mutual

/-- What is written for an element is read as its normal form. -/
theorem readFrom_writeElement (layout : Layout) {limit : Nat} {name : String} (hn : IsName name)
    (depth : Nat) (t : Tree) (ht : t.Writable) (r : Reader)
    (hl : r.stack.length + t.height < limit) (rest : List Char) :
    readFrom limit r (writeElement layout name depth t rest) =
      readFrom limit (r.placeAll name (t.elements.map fun u => u.trimmed.normal)) rest := by
  have hmargin := isSpace_of_mem_margin layout depth
  have hend := isSpace_of_mem_lineEnd layout
  have hlimit : r.stack.length < limit := by omega
  match t with
  | .list items =>
    cases ht with
    | list nonempty elements writable =>
      exact readFrom_writeItems layout hn depth items elements writable r hl rest
  | .text v => exact readFrom_writeText layout hn depth v r hlimit rest
  | .map entries =>
    have hopen := fun rest =>
      readFrom_openElement hn ht hlimit rest
    cases hc : entries.any fun e => isChild e.1 with
    | false =>
      have hclose := close_children name entries
      rw [normalChildren_trimmedEntries_eq_nil hc, List.append_nil] at hclose
      rw [writeElement, hc]
      simp only [Bool.false_eq_true, if_false]
      rw [List.append_assoc, readFrom_blanks hmargin, hopen,
        readFrom_writeContent _ (startsMarkup_closeTag name _), String.empty_append,
        readFrom_closeTag (f := ⟨name, _, _⟩) hn, readFrom_blanks hend, hclose]
      rfl
    | true =>
      have htail : StartsMarkup (layout.margin depth ++ (closeTag name ++ (layout.lineEnd ++ rest))) :=
        (startsMarkup_closeTag name _).append_blanks hmargin
      have hchildren := startsMarkup_writeChildren layout (depth + 1) entries htail
      rw [writeElement, hc]
      simp only [if_true]
      rw [List.append_assoc, readFrom_blanks hmargin, hopen, readFrom_blanks hend,
        readFrom_contentLine layout _ _ hchildren, String.empty_append]
      cases ht with
      | map distinct attributes data names children =>
        rw [readFrom_writeChildren layout (depth + 1) entries distinct names children _ _ _
          (fun key _ hchild hattribute => ?_) (by simpa [height] using hl),
          readFrom_blanks hmargin, readFrom_closeTag (f := ⟨name, _, _⟩) hn, readFrom_blanks hend,
          close_children]
        · rfl
        · have := isAttribute_of_mem_keys_attributes hattribute
          rw [(isChild_iff.1 hchild).1] at this
          exact Bool.noConfusion this

theorem readFrom_writeItems (layout : Layout) {limit : Nat} {name : String} (hn : IsName name)
    (depth : Nat) (items : List Tree) (hi : ∀ t ∈ items, t.isList = false)
    (hw : ∀ t ∈ items, t.Writable) (r : Reader)
    (hl : r.stack.length + heightOfItems items < limit) (rest : List Char) :
    readFrom limit r (writeItems layout name depth items rest) =
      readFrom limit (r.placeAll name (items.map fun u => u.trimmed.normal)) rest := by
  match items with
  | [] => rfl
  | t :: items =>
    rw [heightOfItems] at hl
    have helements : t.elements = [t] := by
      cases t with
      | list _ => exact Bool.noConfusion (hi _ List.mem_cons_self)
      | text _ => rfl
      | map _ => rfl
    rw [writeItems, readFrom_writeElement layout hn depth t (hw t List.mem_cons_self) r (by omega),
      helements, readFrom_writeItems layout hn depth items
        (fun u hu => hi u (List.mem_cons_of_mem t hu))
        (fun u hu => hw u (List.mem_cons_of_mem t hu))]
    · rfl
    · have := Reader.length_stack_place r.top name t.trimmed.normal r.stack
      simp only [Reader.placeAll, List.map_cons, List.map_nil, List.foldl_cons, List.foldl_nil]
      omega

theorem readFrom_writeChildren (layout : Layout) {limit : Nat} (depth : Nat)
    (entries : Entries Tree) (hd : entries.Distinct)
    (hn : ∀ key t, (key, t) ∈ entries → isChild key = true → IsName key)
    (hw : ∀ key t, (key, t) ∈ entries → isChild key = true → t.Writable)
    (f : Frame) (stack : List Frame) (top : Entries Tree)
    (hnew : ∀ key ∈ entries.keys, isChild key = true → key ∉ f.entries.keys)
    (hl : stack.length + heightOfEntries entries < limit) (rest : List Char) :
    readFrom limit ⟨f :: stack, top⟩ (writeChildren layout depth entries rest) =
      readFrom limit
        ⟨{ f with entries := f.entries ++ normalChildren (trimmedEntries entries) } :: stack, top⟩
        rest := by
  match entries with
  | [] => simp [writeChildren, trimmedEntries, normalChildren]
  | (key, t) :: entries =>
    obtain ⟨hkey, hd⟩ := Entries.distinct_cons.1 hd
    have hn' := fun k u hm => hn k u (List.mem_cons_of_mem _ hm)
    have hw' := fun k u hm => hw k u (List.mem_cons_of_mem _ hm)
    have hchildren : normalChildren (trimmedEntries ((key, t) :: entries)) =
        if isChild key then (key, t.trimmed.normal) :: normalChildren (trimmedEntries entries)
        else normalChildren (trimmedEntries entries) := by
      simp only [normalChildren_trimmedEntries, List.filter_cons]
      split <;> rfl
    rw [writeChildren, hchildren]
    rw [heightOfEntries] at hl
    by_cases hk : isChild key = true
    · rw [if_pos hk] at hl ⊢
      have ht := hw key t List.mem_cons_self hk
      rw [readFrom_writeElement layout (hn key t List.mem_cons_self hk) depth t ht _ (by
          simp only [List.length_cons]
          omega),
        Reader.placeAll_frame, foldl_appendChild_elements (hnew key (by simp) hk) ht,
        readFrom_writeChildren layout depth entries hd hn' hw' _ stack top ?_ (by omega)]
      · simp [hk]
      · intro k hm hc
        have hne : k ≠ key := fun he => hkey (he ▸ hm)
        simp only [Entries.keys_append, Entries.keys_cons, Entries.keys_nil, List.mem_append,
          List.mem_singleton, not_or]
        exact ⟨hnew k (by simp [hm]) hc, hne⟩
    · rw [if_neg hk] at hl ⊢
      rw [readFrom_writeChildren layout depth entries hd hn' hw' f stack top
        (fun k hm => hnew k (by simp [hm])) hl]
      simp [hk]

end

/-! ## Documents -/

theorem Token.ofDocument_of_startsMarkup {s : List Char} (h : StartsMarkup (s ++ ['<'])) :
    Token.ofDocument (String.ofList s) = Token.all s := by
  obtain ⟨blanks, rest, hb, he⟩ := h
  unfold Token.ofDocument
  rw [String.toList_ofList]
  split
  · next u hs =>
    cases blanks with
    | nil =>
      rw [List.cons_append, List.nil_append] at he
      exact absurd (List.cons.inj he).1 (by decide)
    | cons c blanks =>
      have hc := hb c List.mem_cons_self
      rw [List.cons_append, List.cons_append] at he
      rw [← (List.cons.inj he).1] at hc
      exact absurd hc (by decide)
  · rfl

theorem writeTop_cons (layout : Layout) (name : String) (t : Tree) (entries : Entries Tree) :
    writeTop layout ((name, t) :: entries) =
      writeElement layout name 0 t (writeTop layout entries) := by
  have happend := writeElement_append layout name 0 t [] (writeTop layout entries)
  rw [List.nil_append] at happend
  rw [happend]
  rfl

theorem startsMarkup_writeTop (layout : Layout) (entries : Entries Tree) :
    StartsMarkup (writeTop layout entries ++ ['<']) := by
  induction entries with
  | nil => exact startsMarkup_cons []
  | cons e entries ih =>
    rw [writeTop_cons, ← writeElement_append]
    exact startsMarkup_writeElement layout e.1 0 e.2 ih

theorem readFrom_writeTop (layout : Layout) {limit : Nat} (entries : Entries Tree)
    (hd : entries.Distinct) (hn : ∀ key t, (key, t) ∈ entries → IsName key)
    (hw : ∀ key t, (key, t) ∈ entries → t.Writable) (top : Entries Tree)
    (hnew : ∀ key ∈ entries.keys, key ∉ top.keys)
    (hl : ∀ key t, (key, t) ∈ entries → t.height < limit) :
    readFrom limit ⟨[], top⟩ (writeTop layout entries) =
      .ok ⟨[], top ++ entries.map fun e => (e.1, e.2.trimmed.normal)⟩ := by
  induction entries generalizing top with
  | nil => simp [writeTop, readFrom, Token.all, pure, Except.pure]
  | cons e entries ih =>
    obtain ⟨key, t⟩ := e
    obtain ⟨hkey, hd⟩ := Entries.distinct_cons.1 hd
    have hmem : (key, t) ∈ (key, t) :: entries := List.mem_cons_self
    have ht := hw key t hmem
    have hheight := hl key t hmem
    rw [writeTop_cons, readFrom_writeElement layout (hn key t hmem) 0 t ht ⟨[], top⟩ (by simpa),
      Reader.placeAll_top, foldl_appendChild_elements (hnew key (by simp)) ht]
    rw [ih hd (fun k u hm => hn k u (List.mem_cons_of_mem _ hm))
      (fun k u hm => hw k u (List.mem_cons_of_mem _ hm)) _ ?_
      (fun k u hm => hl k u (List.mem_cons_of_mem _ hm)), List.append_assoc]
    · rfl
    · intro k hm
      have hne : k ≠ key := fun he => hkey (he ▸ hm)
      simp [hne, hnew k (by simp [hm])]

/-- The general statement: what is written for a document is read as its normal form, but for the
blanks at the ends of its texts. -/
theorem read_write_trimmed (layout : Layout) {limit : Nat} {t : Tree} (h : t.IsDocument)
    (hl : t.height ≤ limit) : read limit (write layout t) = .ok t.trimmed.normal := by
  obtain ⟨hw, entries, rfl, hne, hchild⟩ := h
  cases hw with
  | map distinct attributes data names children =>
    have hchild' : ∀ key t, (key, t) ∈ entries → isChild key = true :=
      fun key t hm => hchild key (Entries.mem_keys_of_mem hm)
    have hheight : ∀ key t, (key, t) ∈ entries → t.height < limit := by
      intro key t hm
      have := height_lt_of_mem hm (hchild' key t hm)
      omega
    have hread := readFrom_writeTop layout entries distinct
      (fun key t hm => names key t hm (hchild' key t hm))
      (fun key t hm => children key t hm (hchild' key t hm)) [] (by simp) hheight
    have htokens : Token.ofDocument (write layout (.map entries)) =
        Token.all (writeTop layout entries) :=
      Token.ofDocument_of_startsMarkup (startsMarkup_writeTop layout entries)
    unfold readFrom at hread
    rw [read, htokens, Reader.start, hread, normal_trimmed_document hchild' hne]
    simp [bind, Except.bind, Reader.finish, hne]

/-- Nothing else is read from what is written for a document. -/
theorem eq_of_read_write (layout : Layout) {limit : Nat} {t u : Tree} (h : t.IsDocument)
    (hr : read limit (write layout t) = .ok u) : u = t.trimmed.normal := by
  rcases read_of_limit_le (Nat.le_max_left limit t.height) (write layout t) with hdeep | hsame
  · cases hdeep.symm.trans hr
  · rw [hsame, read_write_trimmed layout h (Nat.le_max_right limit t.height)] at hr
    exact (Except.ok.inj hr).symm

/-- Reading undoes writing, whatever the layout. -/
theorem read_write (layout : Layout) {limit : Nat} {t : Tree} (h : t.IsDocument)
    (hu : t.TextsUnpadded) (hl : t.height ≤ limit) :
    read limit (write layout t) = .ok t.normal := by
  rw [read_write_trimmed layout h hl, trimmed_of_textsUnpadded h.1 hu]

theorem read_write_quotes_and_end_marks :
    read 2 (write ⟨true, 2⟩ (.map [("a", .map [
        ("@_q", .text " say \"hi\" & <go> "), ("__cdata", .text " ]]>]] "),
        ("b", .list [.text "x  y", .map [("@_c", .text "")]]), ("#text", .text "&amp;"),
        ("d", .list [.text "only"])])])) =
      .ok (.map [("a", .map [
        ("@_q", .text " say \"hi\" & <go> "), ("b", .list [.text "x  y", .map [("@_c", .text "")]]),
        ("d", .text "only"), ("#text", .text "&amp; ]]>]] ")])]) := by
  exact read_write ⟨true, 2⟩ ⟨writable_of_isWritable _ (by decide), _, rfl, by simp, by decide⟩
    (textsUnpadded_of_isUnpadded _ (by decide)) (by decide)

end Markup

end TaggedMarkup
