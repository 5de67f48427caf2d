import TaggedMarkup.Proofs.Encoding.Paths
import TaggedMarkup.Proofs.Markup.Contents
import TaggedMarkup.Proofs.Markup.RoundTrip
import TaggedMarkup.Proofs.Occurrences
/-!
# Children grouped by name

The children of an element are put in as they are closed, and the first of a name keeps the place
where all of that name are collected. So putting in one more child keeps the entries grouped,
however the names before it interleave. Attributes have names that no child has, so the children
group behind them as they would alone.
-/
namespace TaggedMarkup

open Markup

namespace Tree

/-- Lists collect several elements, and elements with entries have some. -/
inductive Grouped : Tree → Prop
  | text (t : String) : Grouped (.text t)
  | map {entries : Entries Tree} (nonempty : entries ≠ [])
      (each : ∀ key t, (key, t) ∈ entries → Grouped t) : Grouped (.map entries)
  | list {items : List Tree} (several : 2 ≤ items.length)
      (elements : ∀ t ∈ items, t.isList = false) (each : ∀ t ∈ items, Grouped t) :
      Grouped (.list items)

theorem Grouped.elements {t : Tree} (h : t.Grouped) :
    t.elements ≠ [] ∧ ∀ u ∈ t.elements, u.isList = false ∧ u.Grouped := by
  cases h with
  | list several elements each =>
    exact ⟨List.ne_nil_of_length_pos (Nat.lt_of_lt_of_le Nat.zero_lt_two several),
      fun u hu => ⟨elements u hu, each u hu⟩⟩
  | text t => simp [Tree.elements, isList, Grouped.text]
  | map nonempty each => simpa [Tree.elements, isList] using Grouped.map nonempty each

end Tree

namespace Markup

/-- The children of one name in document order. -/
def named (children : List (String × Tree)) (name : String) : List Tree :=
  (children.filter fun c => c.1 = name).map Prod.snd

/-- One entry for each name among the children, where the first child of the name stands: the child
itself, or the list of all the children of that name. -/
structure Groups (children : List (String × Tree)) (entries : Entries Tree) : Prop where
  order : InFirstOrder (Entries.keys children) entries.keys
  entry : ∀ name ∈ Entries.keys children,
    Entries.get? entries name = some (Tree.collect (named children name))

/-! ## Putting children in -/

section

variable {entries : Entries Tree} {name : String} {children : List (String × Tree)}

theorem named_append (before after : List (String × Tree)) (name : String) :
    named (before ++ after) name = named before name ++ named after name := by
  simp [named]

theorem named_eq_nil_iff : named children name = [] ↔ name ∉ Entries.keys children := by
  rw [named, List.map_eq_nil_iff, List.filter_eq_nil_iff, Entries.keys, List.mem_map]
  constructor
  · rintro h ⟨c, hc, hname⟩
    exact h c hc (decide_eq_true hname)
  · intro h c hc hname
    exact h ⟨c, hc, of_decide_eq_true hname⟩

theorem isList_of_mem_named (hl : ∀ c ∈ children, c.2.isList = false) :
    ∀ t ∈ named children name, t.isList = false := by
  intro t ht
  obtain ⟨c, hc, rfl⟩ := List.mem_map.1 ht
  exact hl c (List.mem_of_mem_filter hc)

/-- One more child joins those of its name that are in. -/
theorem appendChild_eq_insert {ts : List Tree} (hl : ∀ t ∈ ts, t.isList = false)
    (hget : Entries.get? entries name = if ts = [] then none else some (Tree.collect ts))
    (t : Tree) :
    appendChild entries name t = Entries.insert entries name (Tree.collect (ts ++ [t])) := by
  match ts with
  | [] =>
    rw [appendChild, hget]
    rfl
  | [first] =>
    have hfirst : first.isList = false := hl first (by simp)
    rw [appendChild, hget]
    cases first with
    | list items => exact Bool.noConfusion hfirst
    | text v => rfl
    | map es => rfl
  | first :: second :: more =>
    rw [appendChild, hget]
    rfl

theorem Groups.get?_eq (h : Groups children entries) (name : String) :
    Entries.get? entries name =
      if named children name = [] then none else some (Tree.collect (named children name)) := by
  by_cases hname : name ∈ Entries.keys children
  · rw [h.entry name hname, if_neg (mt named_eq_nil_iff.1 (not_not.2 hname))]
  · rw [if_pos (named_eq_nil_iff.2 hname), Entries.get?_eq_none_iff, h.order.mem_iff]
    exact hname

theorem Groups.append (h : Groups children entries) (hl : ∀ c ∈ children, c.2.isList = false)
    (name : String) (t : Tree) :
    Groups (children ++ [(name, t)]) (appendChild entries name t) := by
  rw [appendChild_eq_insert (isList_of_mem_named hl) (h.get?_eq name)]
  refine ⟨?_, fun other hother => ?_⟩
  · rw [Entries.keys_append]
    exact Entries.inFirstOrder_insert h.order name _
  · rw [Entries.get?_insert, named_append]
    split
    · next he => simp [named, he]
    · next hne =>
      have hold : other ∈ Entries.keys children := by
        simpa [Entries.keys, Ne.symm hne] using hother
      rw [h.entry other hold]
      simp [named, hne]

/-- Putting children in one after the other groups them. -/
theorem groups_appendChildren (children : List (String × Tree))
    (hl : ∀ c ∈ children, c.2.isList = false) : Groups children (appendChildren [] children) := by
  induction children using List.reverseRecOn with
  | nil => exact ⟨.nil, by simp⟩
  | append_singleton children c ih =>
    obtain ⟨hl, -⟩ := List.forall_mem_append.1 hl
    rw [appendChildren, List.foldl_append]
    exact (ih hl).append hl c.1 c.2

/-! ## Behind other entries -/

theorem appendChild_append (h : name ∉ Entries.keys entries) (es : Entries Tree) (t : Tree) :
    appendChild (entries ++ es) name t = entries ++ appendChild es name t := by
  unfold appendChild
  rw [Entries.get?_append, Entries.get?_eq_none_iff.2 h, Option.none_or]
  split <;> exact Entries.insert_append h _ _

/-- Children whose names are new group as they would alone. -/
theorem appendChildren_append (h : ∀ c ∈ children, c.1 ∉ Entries.keys entries) (es : Entries Tree) :
    appendChildren (entries ++ es) children = entries ++ appendChildren es children := by
  induction children generalizing es with
  | nil => rfl
  | cons c rest ih =>
    obtain ⟨hc, hrest⟩ := List.forall_mem_cons.1 h
    unfold appendChildren at ih ⊢
    rw [List.foldl_cons, List.foldl_cons, appendChild_append hc, ih hrest]

end

/-! ## The entries of an element -/

def attributeEntries (attributes : Entries String) : Entries Tree :=
  attributes.map fun a => (Marker.attributeKey a.1, Tree.text a.2)

theorem isAttribute_of_mem_keys_attributeEntries {attributes : Entries String} {key : String}
    (h : key ∈ Entries.keys (attributeEntries attributes)) : Marker.isAttribute key = true := by
  obtain ⟨t, ht⟩ := Entries.exists_of_mem_keys h
  obtain ⟨a, -, he⟩ := List.mem_map.1 ht
  obtain ⟨rfl, -⟩ := Prod.mk.inj he
  rw [Marker.isAttribute, Marker.attributeName?_attributeKey]
  rfl

theorem distinct_attributeEntries {attributes : Entries String} (h : attributes.Distinct) :
    Entries.Distinct (attributeEntries attributes) := by
  have hkeys : Entries.keys (attributeEntries attributes) =
      attributes.keys.map Marker.attributeKey := by
    simp [Entries.keys, attributeEntries]
  rw [Entries.Distinct, hkeys]
  refine List.Nodup.map (fun a b hab => ?_) h
  rw [← Option.some_inj, ← Marker.attributeName?_attributeKey a, hab,
    Marker.attributeName?_attributeKey]

theorem isList_close (f : Frame) : f.close.isList = false := by
  unfold Frame.close
  split
  · rfl
  · split <;> rfl

theorem isList_of_mem_children (contents : List Content) :
    ∀ c ∈ children contents, c.2.isList = false := by
  induction contents with
  | nil => simp [children]
  | cons content rest ih =>
    cases content with
    | data run => exact ih
    | element name attributes contents =>
      rw [children_element, List.forall_mem_cons, Content.tree]
      exact ⟨isList_close _, ih⟩

/-- Neither the key of an attribute nor that of character data. -/
def IsPlainName (name : String) : Prop := Marker.isAttribute name = false ∧ name ≠ Marker.text

instance (name : String) : Decidable (IsPlainName name) := inferInstanceAs (Decidable (_ ∧ _))

/-- An element is its attributes, its children by name and its character data, in this order. -/
theorem tree_eq_element {name : String} {attributes : Entries String} {contents : List Content}
    (hd : attributes.Distinct)
    (hplain : ∀ child ∈ Entries.keys (children contents), IsPlainName child) :
    (Content.element name attributes contents).tree =
      Tree.element
        (attributeEntries attributes ++ appendChildren [] (children contents))
        (joinedData contents) := by
  have hgroups := groups_appendChildren (children contents) (isList_of_mem_children contents)
  have hnew : ∀ c ∈ children contents, c.1 ∉ Entries.keys (attributeEntries attributes) := by
    intro c hc hmem
    have hc := (hplain c.1 (List.mem_map_of_mem hc)).1
    rw [isAttribute_of_mem_keys_attributeEntries hmem] at hc
    cases hc
  have hfill : (Frame.ofTag name attributes).fill (children contents) (joinedData contents) =
      ⟨name, attributeEntries attributes ++ appendChildren [] (children contents),
        joinedData contents⟩ := by
    have happend := appendChildren_append hnew []
    rw [List.append_nil] at happend
    rw [Frame.fill, ← happend, Frame.ofTag, ← attributeEntries,
      Entries.ofPairs_eq (distinct_attributeEntries hd), String.empty_append]
  rw [Content.tree, hfill, Frame.close_eq]
  rw [Entries.keys_append, List.mem_append, not_or]
  constructor
  · intro hmem
    exact absurd (isAttribute_of_mem_keys_attributeEntries hmem) (by decide)
  · intro hmem
    exact (hplain _ ((hgroups.order.mem_iff _).1 hmem)).2 rfl

/-- Children of two names in turn, with character data around them. -/
def interleaved : List Content :=
  [.data "a", .element "x" [] [.data "1"], .element "y" [] [],
    .element "x" [] [.element "z" [] [], .data "2"], .data " b"]

example : (Content.element "c" [("id", "7")] interleaved).tree =
    .map [("@_id", .text "7"),
      ("x", .list [.text "1", .map [("z", .text ""), ("#text", .text "2")]]),
      ("y", .text ""), ("#text", .text "a b")] := by rfl

/-! ## Trees that are read -/

/-- Each entry is grouped at every depth. -/
def HoldGrouped (entries : Entries Tree) : Prop := ∀ key t, (key, t) ∈ entries → t.Grouped

theorem HoldGrouped.insert {entries : Entries Tree} (h : HoldGrouped entries) (key : String)
    {t : Tree} (ht : t.Grouped) : HoldGrouped (Entries.insert entries key t) := by
  intro k u hm
  rcases Entries.mem_insert hm with hm | ⟨-, rfl⟩
  · exact h k u hm
  · exact ht

theorem HoldGrouped.appendChild {entries : Entries Tree} (h : HoldGrouped entries) (name : String)
    {t : Tree} (hl : t.isList = false) (ht : t.Grouped) :
    HoldGrouped (appendChild entries name t) := by
  rcases appendChild_cases entries name t with he | ⟨old, hold, he⟩
  · rw [he]
    exact h.insert name ht
  · rw [he]
    obtain ⟨hne, helements⟩ := (h _ _ hold).elements
    have hall : ∀ u ∈ old.elements ++ [t], u.isList = false ∧ u.Grouped :=
      List.forall_mem_append.2 ⟨helements, by simpa using ⟨hl, ht⟩⟩
    refine h.insert name (.list ?_ (fun u hu => (hall u hu).1) fun u hu => (hall u hu).2)
    rw [List.length_append]
    exact Nat.succ_le_succ (List.length_pos_iff.2 hne)

theorem holdGrouped_ofTag (name : String) (attributes : Entries String) :
    HoldGrouped (Frame.ofTag name attributes).entries := by
  intro key t ht
  obtain ⟨a, -, -, rfl⟩ := exists_of_mem_ofTag ht
  exact .text _

theorem HoldGrouped.close {f : Frame} (h : HoldGrouped f.entries) : f.close.Grouped := by
  unfold Frame.close
  split
  · exact .text _
  · next hentries =>
    have hentries : f.entries ≠ [] := by simpa using hentries
    split
    · exact .map hentries h
    · refine .map (fun hnil => ?_) (h.insert Marker.text (.text _))
      have hkeys := Entries.get?_insert f.entries Marker.text (.text f.text) Marker.text
      rw [hnil, if_pos rfl] at hkeys
      cases hkeys

theorem kept_holdGrouped : Kept (fun _ => True) (fun _ => True)
    (fun t => t.isList = false ∧ t.Grouped) HoldGrouped where
  nil := by simp [HoldGrouped]
  opening name attributes _ := ⟨trivial, holdGrouped_ofTag name attributes⟩
  append _ name _ h _ ht := h.appendChild name ht.1 ht.2
  close f h := ⟨isList_close f, h.close⟩

theorem grouped_of_read {limit : Nat} {text : String} {t : Tree} (h : read limit text = .ok t) :
    t.Grouped := by
  obtain ⟨entries, rfl, hne, hentries⟩ := kept_holdGrouped.read (fun _ _ => trivial) h
  exact .map hne hentries

/-- Reading keeps every child. Lists collect several elements, and elements with entries have some.
The tokens of a text that can be read spell a document. Its elements are grouped by name at the top
and in every element without children of the names that attributes and character data have, where
they stand behind the attributes and before the joined character data. -/
theorem read_groups {limit : Nat} {text : String} {t : Tree} (h : read limit text = .ok t) :
    t.Grouped ∧ (∃ document, Spells (Token.ofDocument text) document) ∧
      ∀ document, Spells (Token.ofDocument text) document →
        (∃ groups, Groups (children document) groups ∧ t = .map groups) ∧
        ∀ name attributes contents, HasElement name attributes contents document →
          (∀ child ∈ Entries.keys (children contents), IsPlainName child) →
          ∃ groups, Groups (children contents) groups ∧
            (Content.element name attributes contents).tree =
              Tree.element (attributeEntries attributes ++ groups) (joinedData contents) := by
  refine ⟨grouped_of_read h, exists_spells h, fun document hdocument => ⟨?_, ?_⟩⟩
  · exact ⟨_, groups_appendChildren _ (isList_of_mem_children document), eq_of_spells hdocument h⟩
  · intro name attributes contents helement hplain
    have hdistinct := hdocument.distinct (Token.hasDistinct_of_mem_ofDocument text) helement
    exact ⟨_, groups_appendChildren _ (isList_of_mem_children contents),
      tree_eq_element hdistinct hplain⟩

def interleavedText : String :=
  "<root><c id=\"7\">a<x>1</x><y/><x><z/>2</x><![CDATA[ b]]></c></root>"

theorem read_groups_interleaved :
    ∃ t, read 4 interleavedText = .ok t ∧ t.Grouped ∧
      Spells (Token.ofDocument interleavedText)
        [.element "root" [] [.element "c" [("id", "7")] interleaved]] ∧
      (∀ child ∈ Entries.keys (children interleaved), IsPlainName child) ∧
      ∃ groups, Groups (children interleaved) groups ∧
        (Content.element "c" [("id", "7")] interleaved).tree =
          Tree.element (attributeEntries [("id", "7")] ++ groups) "a b" := by
  have hread : (read 4 interleavedText).toOption.isSome = true := by decide +kernel
  obtain ⟨t, ht⟩ := Option.isSome_iff_exists.1 hread
  rw [← Encoder.eq_ok_iff_toOption] at ht
  have htokens : Token.ofDocument interleavedText =
      [.opening "root" (some []), .opening "c" (some [("id", "7")]), .characters (some "a"),
        .opening "x" (some []), .characters (some "1"), .closing "x", .selfClosing "y" (some []),
        .opening "x" (some []), .selfClosing "z" (some []), .characters (some "2"), .closing "x",
        .verbatim " b", .closing "c", .closing "root"] := by decide +kernel
  have hfirst := Spells.characters "1" .nil
  have hsecond := Spells.selfClosing "z" [] (.characters "2" .nil)
  have hinside := Spells.characters "a" (.element "x" [] hfirst
    (.selfClosing "y" [] (.element "x" [] hsecond (.verbatim " b" .nil))))
  have hdocument : Spells (Token.ofDocument interleavedText)
      [.element "root" [] [.element "c" [("id", "7")] interleaved]] := by
    rw [htokens]
    exact .element "root" [] (.element "c" [("id", "7")] hinside .nil) .nil
  have hplain : ∀ child ∈ Entries.keys (children interleaved), IsPlainName child := by decide
  obtain ⟨hgrouped, -, hgroups⟩ := read_groups ht
  exact ⟨t, ht, hgrouped, hdocument, hplain,
    (hgroups _ hdocument).2 "c" [("id", "7")] interleaved (.inside "root" [] [] (.here [])) hplain⟩

end Markup

end TaggedMarkup
