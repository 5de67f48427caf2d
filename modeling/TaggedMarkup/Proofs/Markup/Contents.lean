import TaggedMarkup.Proofs.Markup.Reading
/-!
# The contents of a document

The tokens of a document that can be read are those of character data and elements, each with its
contents between its tags. `Spells` says so without the open elements that reading carries along.
Whatever is open, reading what spells some contents puts the trees of their elements into the
innermost open element, or at the top, and their character data behind its own.
-/
namespace TaggedMarkup.Markup

/-- A run of character data or an element, as they stand in a document. -/
inductive Content where
  | data (run : String)
  | element (name : String) (attributes : Entries String) (contents : List Content)

/-- Tokens that say contents in document order. -/
inductive Spells : List Token → List Content → Prop
  | nil : Spells [] []
  | skipped {tokens : List Token} {contents : List Content} (rest : Spells tokens contents) :
      Spells (.skipped :: tokens) contents
  | characters (run : String) {tokens : List Token} {contents : List Content}
      (rest : Spells tokens contents) :
      Spells (.characters (some run) :: tokens) (.data run :: contents)
  | verbatim (run : String) {tokens : List Token} {contents : List Content}
      (rest : Spells tokens contents) : Spells (.verbatim run :: tokens) (.data run :: contents)
  | selfClosing (name : String) (attributes : Entries String) {tokens : List Token}
      {contents : List Content} (rest : Spells tokens contents) :
      Spells (.selfClosing name (some attributes) :: tokens)
        (.element name attributes [] :: contents)
  | element (name : String) (attributes : Entries String) {inner tokens : List Token}
      {within contents : List Content} (inside : Spells inner within)
      (rest : Spells tokens contents) :
      Spells (.opening name (some attributes) :: (inner ++ .closing name :: tokens))
        (.element name attributes within :: contents)

/-- An element with this tag and these contents, at any depth. -/
inductive HasElement (name : String) (attributes : Entries String) (inner : List Content) :
    List Content → Prop
  | here (rest : List Content) :
      HasElement name attributes inner (.element name attributes inner :: rest)
  | inside (n : String) (a : Entries String) {within : List Content} (rest : List Content)
      (h : HasElement name attributes inner within) :
      HasElement name attributes inner (.element n a within :: rest)
  | later (c : Content) {rest : List Content} (h : HasElement name attributes inner rest) :
      HasElement name attributes inner (c :: rest)

/-! ## The trees of elements -/

/-- The runs of character data that stand directly in contents, joined. -/
def joinedData : List Content → String
  | [] => ""
  | .data run :: rest => run ++ joinedData rest
  | .element _ _ _ :: rest => joinedData rest

def appendChildren (entries : Entries Tree) (children : List (String × Tree)) : Entries Tree :=
  children.foldl (fun es c => appendChild es c.1 c.2) entries

def Frame.fill (f : Frame) (children : List (String × Tree)) (data : String) : Frame :=
  { f with entries := appendChildren f.entries children, text := f.text ++ data }

def Content.name? : Content → Option String
  | .data _ => none
  | .element name _ _ => some name

mutual

/-- The tree of an element, or the text of a run. -/
def Content.tree : Content → Tree
  | .data run => .text run
  | .element name attributes contents =>
    ((Frame.ofTag name attributes).fill (children contents) (joinedData contents)).close

/-- The elements that stand directly in contents, by name, with their trees. -/
def children : List Content → List (String × Tree)
  | [] => []
  | c :: rest =>
    match c.name? with
    | some name => (name, c.tree) :: children rest
    | none => children rest

end

theorem children_element (name : String) (attributes : Entries String)
    (contents rest : List Content) :
    children (.element name attributes contents :: rest) =
      (name, (Content.element name attributes contents).tree) :: children rest := rfl

theorem children_data (run : String) (rest : List Content) :
    children (.data run :: rest) = children rest := rfl

/-! ## Reading what spells contents -/

/-- Contents put into the innermost open element; at the top there are only elements. -/
def Reader.fill (r : Reader) (contents : List Content) : Reader :=
  match r.stack with
  | [] => { r with top := appendChildren r.top (children contents) }
  | f :: stack => { r with stack := f.fill (children contents) (joinedData contents) :: stack }

section

variable {limit : Nat} {r s : Reader}

theorem Frame.fill_nil (f : Frame) : f.fill [] "" = f := by
  simp [Frame.fill, appendChildren]

namespace Reader

theorem fill_nil (r : Reader) : r.fill [] = r := by
  obtain ⟨_ | ⟨f, stack⟩, top⟩ := r
  · rfl
  · simp only [fill, children, joinedData, Frame.fill_nil]

theorem fill_element (name : String) (attributes : Entries String) (within rest : List Content) :
    (place r.top name (Content.element name attributes within).tree r.stack).fill rest =
      r.fill (.element name attributes within :: rest) := by
  obtain ⟨_ | ⟨f, stack⟩, top⟩ := r <;> rfl

theorem run_cons {t : Token} {tokens : List Token} :
    (t :: tokens).foldlM (step limit) r = .ok s ↔
      ∃ next, r.step limit t = .ok next ∧ tokens.foldlM (step limit) next = .ok s := by
  rw [List.foldlM_cons]
  exact bind_eq_ok_iff

theorem run_append {before after : List Token} :
    (before ++ after).foldlM (step limit) r = .ok s ↔
      ∃ next, before.foldlM (step limit) r = .ok next ∧
        after.foldlM (step limit) next = .ok s := by
  rw [List.foldlM_append]
  exact bind_eq_ok_iff

theorem step_opening {name : String} {attributes : Attributes}
    (h : r.step limit (.opening name attributes) = .ok s) :
    ∃ pairs, attributes = some pairs ∧ s = ⟨Frame.ofTag name pairs :: r.stack, r.top⟩ := by
  obtain ⟨f, hf, he⟩ := bind_eq_ok_iff.1 h
  obtain ⟨-, pairs, rfl, rfl⟩ := openTag_eq_ok_iff.1 hf
  exact ⟨pairs, rfl, (pure_eq_ok_iff.1 he).symm⟩

theorem step_selfClosing {name : String} {attributes : Attributes}
    (h : r.step limit (.selfClosing name attributes) = .ok s) :
    ∃ pairs, attributes = some pairs ∧
      s = place r.top name (Content.element name pairs []).tree r.stack := by
  obtain ⟨f, hf, he⟩ := bind_eq_ok_iff.1 h
  obtain ⟨-, pairs, rfl, rfl⟩ := openTag_eq_ok_iff.1 hf
  refine ⟨pairs, rfl, ?_⟩
  rw [Content.tree, children, joinedData, Frame.fill_nil]
  exact (pure_eq_ok_iff.1 he).symm

theorem step_closing {name : String} {f : Frame} {stack : List Frame} {top : Entries Tree}
    (h : step limit ⟨f :: stack, top⟩ (.closing name) = .ok s) :
    f.name = name ∧ s = place top f.name f.close stack := by
  simp only [step] at h
  split at h
  · next hname => exact ⟨hname, (Except.ok.inj h).symm⟩
  · cases h

theorem exists_of_appendText {outside : Fault} {text : Option String}
    (h : r.appendText outside text = .ok s) :
    ∃ run, text = some run ∧ s.stack.map Frame.name = r.stack.map Frame.name ∧
      ∀ rest, s.fill rest = r.fill (.data run :: rest) := by
  obtain ⟨f, stack, run, hstack, rfl, rfl⟩ := appendText_eq_ok_iff.1 h
  refine ⟨run, rfl, by rw [hstack]; rfl, fun rest => ?_⟩
  simp only [fill, hstack, children_data, joinedData, Frame.fill, String.append_assoc]

end Reader

/-- Reading what spells contents fills them in, whatever elements are open. -/
theorem Spells.run {tokens : List Token} {contents : List Content} (h : Spells tokens contents)
    (hs : tokens.foldlM (Reader.step limit) r = .ok s) : s = r.fill contents := by
  induction h generalizing r s with
  | nil => rw [← pure_eq_ok_iff.1 hs, r.fill_nil]
  | skipped _ ih =>
    obtain ⟨next, hnext, hrest⟩ := Reader.run_cons.1 hs
    obtain rfl := Except.ok.inj hnext
    exact ih hrest
  | characters run _ ih | verbatim run _ ih =>
    obtain ⟨next, hnext, hrest⟩ := Reader.run_cons.1 hs
    obtain ⟨_, ⟨⟩, -, hfill⟩ := Reader.exists_of_appendText hnext
    rw [ih hrest, hfill]
  | selfClosing name attributes _ ih =>
    obtain ⟨next, hnext, hrest⟩ := Reader.run_cons.1 hs
    obtain ⟨_, ⟨⟩, rfl⟩ := Reader.step_selfClosing hnext
    rw [ih hrest, Reader.fill_element]
  | element name attributes _ _ ihinside ih =>
    obtain ⟨opened, hopened, hs⟩ := Reader.run_cons.1 hs
    obtain ⟨filled, hfilled, hs⟩ := Reader.run_append.1 hs
    obtain ⟨closed, hclosed, hrest⟩ := Reader.run_cons.1 hs
    obtain ⟨_, ⟨⟩, rfl⟩ := Reader.step_opening hopened
    obtain rfl := ihinside hfilled
    -- The closing tag meets the frame of its own opening tag, as what is inside leaves the stack.
    obtain ⟨-, rfl⟩ := Reader.step_closing hclosed
    rw [ih hrest, ← Reader.fill_element, Content.tree]
    rfl

/-! ## What can be read spells contents -/

/-- Tokens that close open elements one after the other, with contents before each closing tag. -/
inductive Completes : List String → List Token → Prop
  | last {tokens : List Token} {contents : List Content} (rest : Spells tokens contents) :
      Completes [] tokens
  | closing (name : String) {names : List String} {inner tokens : List Token}
      {within : List Content} (inside : Spells inner within) (rest : Completes names tokens) :
      Completes (name :: names) (inner ++ .closing name :: tokens)

namespace Completes

variable {names : List String} {tokens : List Token}

/-- A token that spells contents joins those of the innermost open element. -/
theorem cons {t : Token} (ht : ∀ tokens contents, Spells tokens contents →
    ∃ more, Spells (t :: tokens) more) (h : Completes names tokens) :
    Completes names (t :: tokens) := by
  cases h with
  | last rest =>
    obtain ⟨more, hmore⟩ := ht _ _ rest
    exact .last hmore
  | closing name inside rest =>
    obtain ⟨more, hmore⟩ := ht _ _ inside
    exact .closing name hmore rest

theorem opening (name : String) (attributes : Entries String)
    (h : Completes (name :: names) tokens) :
    Completes names (.opening name (some attributes) :: tokens) := by
  cases h with
  | closing _ inside rest =>
    cases rest with
    | last rest => exact .last (.element name attributes inside rest)
    | closing outer inside' rest =>
      have h := Completes.closing outer (.element name attributes inside inside') rest
      rwa [List.cons_append, List.append_assoc, List.cons_append] at h

end Completes

theorem Reader.names_place (top : Entries Tree) (name : String) (t : Tree) (stack : List Frame) :
    (place top name t stack).stack.map Frame.name = stack.map Frame.name := by
  cases stack <;> rfl

theorem completes_of_step {t : Token} {tokens : List Token} (hs : r.step limit t = .ok s)
    (h : Completes (s.stack.map Frame.name) tokens) :
    Completes (r.stack.map Frame.name) (t :: tokens) := by
  cases t with
  | opening name attributes =>
    obtain ⟨pairs, rfl, rfl⟩ := Reader.step_opening hs
    exact h.opening name pairs
  | selfClosing name attributes =>
    obtain ⟨pairs, rfl, rfl⟩ := Reader.step_selfClosing hs
    rw [Reader.names_place] at h
    exact h.cons fun _ _ rest => ⟨_, .selfClosing name pairs rest⟩
  | closing name =>
    obtain ⟨_ | ⟨f, stack⟩, top⟩ := r
    · cases hs
    · obtain ⟨rfl, rfl⟩ := Reader.step_closing hs
      rw [Reader.names_place] at h
      exact .closing f.name .nil h
  | characters text =>
    obtain ⟨run, rfl, hnames, -⟩ := Reader.exists_of_appendText hs
    rw [hnames] at h
    exact h.cons fun _ _ rest => ⟨_, .characters run rest⟩
  | verbatim text =>
    obtain ⟨-, -, hnames, -⟩ := Reader.exists_of_appendText hs
    rw [hnames] at h
    exact h.cons fun _ _ rest => ⟨_, .verbatim text rest⟩
  | skipped =>
    obtain rfl := Except.ok.inj hs
    exact h.cons fun _ _ rest => ⟨_, .skipped rest⟩
  | malformed => cases hs

theorem completes_of_run {tokens : List Token} (hs : tokens.foldlM (Reader.step limit) r = .ok s)
    (hend : s.stack = []) : Completes (r.stack.map Frame.name) tokens := by
  induction tokens generalizing r with
  | nil =>
    obtain rfl := pure_eq_ok_iff.1 hs
    rw [hend]
    exact .last .nil
  | cons t rest ih =>
    obtain ⟨next, hnext, hrest⟩ := Reader.run_cons.1 hs
    exact completes_of_step hnext (ih hrest)

end

/-- A document that can be read has contents, and the trees of its elements are put in one after the
other. -/
theorem exists_spells {limit : Nat} {text : String} {t : Tree} (h : read limit text = .ok t) :
    ∃ document, Spells (Token.ofDocument text) document := by
  obtain ⟨top, hrun, -, -⟩ := read_eq_ok_iff.1 h
  have hcompletes : Completes [] (Token.ofDocument text) := completes_of_run hrun rfl
  cases hcompletes with
  | last rest => exact ⟨_, rest⟩

theorem eq_of_spells {limit : Nat} {text : String} {t : Tree} {document : List Content}
    (hd : Spells (Token.ofDocument text) document) (h : read limit text = .ok t) :
    t = .map (appendChildren [] (children document)) := by
  obtain ⟨top, hrun, -, rfl⟩ := read_eq_ok_iff.1 h
  have hfilled := congrArg Reader.top (hd.run hrun)
  exact congrArg Tree.map hfilled

/-! ## The attributes of a document -/

/-- The attributes of a tag have distinct names. -/
def Token.HasDistinct : Token → Prop
  | opening _ attributes | selfClosing _ attributes =>
    ∀ pairs, attributes = some pairs → Entries.Distinct pairs
  | _ => True

theorem distinct_of_attributes? {s : List Char} {pairs : Entries String}
    (h : attributes? s = some pairs) : pairs.Distinct := by
  rw [attributes?_eq] at h
  obtain ⟨raw, -, h⟩ := Option.bind_eq_some_iff.1 h
  obtain ⟨found, -, h⟩ := Option.bind_eq_some_iff.1 h
  split at h
  · next hnodup => exact Option.some.inj h ▸ hnodup
  · cases h

namespace Token

theorem hasDistinct_ofTag (content : List Char) : (ofTag content).HasDistinct := by
  unfold ofTag
  dsimp only
  split <;> exact fun pairs h => distinct_of_attributes? h

theorem hasDistinct_delimited {make : List Char → Token} (h : ∀ content, (make content).HasDistinct)
    (found : Option (List Char × List Char)) : (delimited make found).1.HasDistinct := by
  cases found with
  | none => trivial
  | some found => exact h found.1

theorem hasDistinct_ofDoctype (s : List Char) : (ofDoctype s).1.HasDistinct := by
  unfold ofDoctype
  split
  · refine hasDistinct_delimited (fun content => ?_) _
    split <;> trivial
  · trivial

theorem hasDistinct_ofMarkup (s : List Char) : (ofMarkup s).1.HasDistinct := by
  unfold ofMarkup
  split
  · refine hasDistinct_delimited ?_ _
    exact fun content => trivial
  · refine hasDistinct_delimited ?_ _
    exact fun content => trivial
  · exact hasDistinct_ofDoctype _
  · trivial
  · refine hasDistinct_delimited ?_ _
    exact fun content => trivial
  · refine hasDistinct_delimited ?_ _
    exact fun content => trivial
  · exact hasDistinct_delimited hasDistinct_ofTag _

theorem hasDistinct_ofText (s : List Char) : (ofText s).1.HasDistinct := by
  unfold ofText
  split
  · exact hasDistinct_ofMarkup _
  · trivial

theorem hasDistinct_of_mem_all (s : List Char) : ∀ t ∈ all s, t.HasDistinct := by
  induction s using all.induct with
  | case1 s h =>
    rw [all, dif_pos h]
    simp
  | case2 s h ih =>
    rw [all, dif_neg h, List.forall_mem_cons]
    exact ⟨hasDistinct_ofText _, ih⟩

theorem hasDistinct_of_mem_ofDocument (text : String) :
    ∀ t ∈ ofDocument text, t.HasDistinct := by
  unfold ofDocument
  split <;> exact hasDistinct_of_mem_all _

end Token

theorem Spells.distinct {tokens : List Token} {document : List Content} (h : Spells tokens document)
    (ht : ∀ t ∈ tokens, t.HasDistinct) {name : String} {attributes : Entries String}
    {contents : List Content} (he : HasElement name attributes contents document) :
    attributes.Distinct := by
  induction h with
  | nil => cases he
  | skipped _ ih => exact ih (List.forall_mem_cons.1 ht).2 he
  | characters _ _ ih | verbatim _ _ ih =>
    cases he with
    | later _ he => exact ih (List.forall_mem_cons.1 ht).2 he
  | selfClosing _ _ _ ih =>
    obtain ⟨hfirst, hrest⟩ := List.forall_mem_cons.1 ht
    cases he with
    | here => exact hfirst _ rfl
    | inside _ _ _ he => cases he
    | later _ he => exact ih hrest he
  | element _ _ _ _ ihinside ih =>
    obtain ⟨hfirst, hrest⟩ := List.forall_mem_cons.1 ht
    obtain ⟨hinside, hrest⟩ := List.forall_mem_append.1 hrest
    cases he with
    | here => exact hfirst _ rfl
    | inside _ _ _ he => exact ihinside hinside he
    | later _ he => exact ih (List.forall_mem_cons.1 hrest).2 he

end TaggedMarkup.Markup
