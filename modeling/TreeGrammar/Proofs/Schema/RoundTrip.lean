/-
Schemas written down and read back.

A schema that has been obtained can be written down, and what is read back is alike: the
same tags in the same order with the same kinds and attributes, the same start, and
contents whose tables have new numbers and otherwise do the same. So both schemas report
the same violations for every document.

The words that hold numbers have a size. Numbers of states have 32 bits and indices of
tags 64, in the encoding as in the tables themselves; `FitsWords` says of a schema what
this means for it. A schema that has been read needs indices for its tags only, since
reading refuses a greater number of a state (`fitsWords_of_decode`).
-/
import TreeGrammar.Proofs.Schema.Obtained
import TreeGrammar.Proofs.Schema.Rows
import TreeGrammar.Proofs.Validation.Alike

set_option autoImplicit false

namespace TreeGrammar

/-- The numbers of states fit into **words of 32 bits** and the indices of tags into
words of 64. -/
structure Schema.FitsWords (s : Schema) : Prop where
  states : ∀ r ∈ s.rules, ∀ a ∈ r.content.automata, a.Within Compact.maxState
  tags : (Compact.allTags s).length ≤ Compact.maxIndex + 1

/-- A table has no more numbered states than there are numbers for them. -/
theorem Automaton.Within.length_inner_le {a : Automaton} {n : Nat} (h : a.Within n) :
    a.inner.length ≤ n + 1 := by
  have hnodup : a.inner.Nodup := (nodup_eraseDups _).filter _
  have hsub : a.inner ⊆ (List.range (n + 1)).map State.id := by
    intro s hs
    obtain ⟨hmem, hshared⟩ := mem_inner_iff.mp hs
    cases s with
    | start => exact absurd hshared (by simp [State.isShared])
    | fin => exact absurd hshared (by simp [State.isShared])
    | id k =>
        have hk := h k hmem
        exact List.mem_map_of_mem (List.mem_range.mpr (by omega))
  have hle := (hnodup.subperm hsub).length_le
  rwa [List.length_map, List.length_range] at hle

namespace Compact

variable {s : Schema} {r : ElementRule} {tags attributes : List String} {name : String}

/-! ## The lists of a schema -/

/-- The elements of a content are those that a token of its tables is for. Text is a
token, but not an element. -/
theorem mem_childNames_iff :
    name ∈ r.childNames ↔ ∃ a ∈ r.content.automata, Token.element name ∈ a.reachableTokens := by
  rw [ElementRule.childNames, List.mem_filterMap]
  constructor
  · rintro ⟨x, hx, hname⟩
    have heq : x = .element name := by
      cases x with
      | text => exact absurd hname (by simp [Token.elementName?])
      | element name' => rw [Option.some.inj hname]
    rw [heq, Expression.allowedTokens, List.mem_eraseDups, List.mem_flatMap] at hx
    exact hx
  · rintro ⟨a, ha, htoken⟩
    refine ⟨.element name, ?_, rfl⟩
    rw [Expression.allowedTokens, List.mem_eraseDups, List.mem_flatMap]
    exact ⟨a, ha, htoken⟩

/-- The declared tags **come first**. So the index of a declared tag is its place among
the declarations. -/
theorem exists_allTags_eq (s : Schema) : ∃ more, allTags s = s.tags ++ more := by
  have hnodup : s.tags.Nodup := s.elements.keys_nodup
  rw [allTags, List.eraseDups_append, eraseDups_of_nodup hnodup]
  exact ⟨_, rfl⟩

/-- Every element that occurs in a content is one of the tags. Every label of a compiled
table has a code for this reason. -/
theorem mem_allTags_of_mem_childNames (hr : r ∈ s.rules) (h : name ∈ r.childNames) :
    name ∈ allTags s := by
  rw [allTags, List.mem_eraseDups, List.mem_append, List.mem_flatMap]
  exact .inr ⟨r, hr, h⟩

/-- Where every label has a code among some tags, the schema has no more tags than
those. It bounds the indices by what fits in a word. -/
theorem length_allTags_le (hdeclared : ∀ tag ∈ s.tags, tag ∈ tags) (hlabels : ∀ r ∈ s.rules,
    ∀ a ∈ r.content.automata, ∀ e ∈ a.edges, (labelCode? tags e.label).isSome = true) :
    (allTags s).length ≤ tags.length := by
  have hsub : allTags s ⊆ tags := by
    intro name hname
    rw [allTags, List.mem_eraseDups, List.mem_append, List.mem_flatMap] at hname
    rcases hname with htag | ⟨r, hr, hchild⟩
    · exact hdeclared name htag
    · obtain ⟨a, ha, htoken⟩ := mem_childNames_iff.mp hchild
      obtain ⟨s, t, -, hst⟩ := Automaton.mem_reachableTokens_iff.mp htoken
      have hcode := hlabels r hr a ha ⟨s, _, t⟩ ((a.mem_edges_iff _).mpr hst)
      by_contra hnot
      rw [labelCode?_eq_none_iff.mpr ⟨name, rfl, hnot⟩] at hcode
      exact absurd hcode (by simp)
  exact ((nodup_eraseDups _).subperm hsub).length_le

theorem mem_allAttributes (hr : r ∈ s.rules) (h : name ∈ r.attributes) :
    name ∈ allAttributes s := by
  rw [allAttributes, List.mem_eraseDups, List.mem_flatMap]
  exact ⟨r, hr, h⟩

/-! ## Parts of an entry -/

/-- An index is read as the entry that it was found for. -/
theorem entryAt_idxOf? {part : String} {list : List String} {i : Nat}
    (h : list.idxOf? name = some i) : entryAt part list (.nat i) = .ok name := by
  have hentry : (natural? (Json.nat i)).bind (fun i => list[i]?) = some name := getElem?_of_idxOf? h
  rw [entryAt, hentry]

theorem mapM_entryAt (part : String) {list names : List String} (h : ∀ name ∈ names, name ∈ list) :
    ((names.filterMap list.idxOf?).map Json.nat).mapM (entryAt part list) = .ok names := by
  -- every name has an index, so none is left out
  have hindices : (names.filterMap list.idxOf?).map Json.nat
      = names.map fun name => Json.nat ((list.idxOf? name).getD 0) := by
    induction names with
    | nil => rfl
    | cons name rest ih =>
        obtain ⟨i, hi⟩ := exists_idxOf? (h name List.mem_cons_self)
        rw [List.filterMap_cons, hi, List.map_cons, List.map_cons, hi, Option.getD_some,
          ih fun name' h' => h name' (List.mem_cons_of_mem name h')]
  rw [hindices]
  refine mapM_map_eq_ok fun name hname => ?_
  obtain ⟨i, hi⟩ := exists_idxOf? (h name hname)
  rw [hi, Option.getD_some]
  exact entryAt_idxOf? hi

theorem decodeKind_code (kind : ElementKind) : decodeKind (.nat kind.code) = .ok kind := by
  have hcode : natural? (Json.nat kind.code) = some kind.code := rfl
  rw [decodeKind, hcode]
  dsimp only
  rw [ElementKind.ofCode?_code]

/-- A content is read back as one that is **alike**, table by table. The states are
renumbered by reading, so contents are not equal but alike. -/
theorem exists_decodeContent (hproper : r.Proper) (htags : tags.length ≤ maxIndex + 1)
    (hstates : ∀ a ∈ r.content.automata, a.Within maxState)
    (hnamed : ∀ name ∈ r.childNames, name ∈ tags) :
    ∃ e, decodeContent tags (encodeContent tags r.content) = .ok e ∧ r.content.Alike e := by
  have hread : ∀ a ∈ r.content.automata,
      ∃ b, decodeAutomaton tags (encodeAutomaton tags a) = .ok b ∧ a.Alike b := fun a ha =>
    exists_decodeAutomaton (hproper.wellFormed a ha) (hproper.tidy a ha)
      (hstates a ha).length_inner_le htags fun name h => hnamed name
      (mem_childNames_iff.mpr ⟨a, ha, h⟩)
  -- the tie-break is not written, so it has to be the one that reading puts in
  have htie := hproper.tieBreak
  generalize r.content = e at hread htie
  cases e with
  | single a =>
      obtain ⟨b, hb, hab⟩ := hread a (List.mem_singleton_self a)
      refine ⟨.single b, ?_, .single hab⟩
      show (do return Expression.single (← decodeAutomaton tags (encodeAutomaton tags a))) = _
      rw [hb]
      rfl
  | interleave as tieBreak =>
      obtain ⟨bs, hbs, hall⟩ := exists_mapM_map hread
      rw [Expression.withTieBreak, Expression.interleave.injEq] at htie
      refine ⟨.interleave bs .firstMatch, ?_, ?_⟩
      · show (do
          let blocks ← (as.map (encodeAutomaton tags)).mapM (decodeAutomaton tags)
          return Expression.interleave blocks TieBreak.firstMatch) = Except.ok _
        rw [show (as.map (encodeAutomaton tags)).mapM (decodeAutomaton tags) = _ from hbs]
        rfl
      · rw [htie.2]
        exact .interleave tieBreak hall

/-- An entry is read back as a rule that is alike. -/
theorem exists_decodeRule (hproper : r.Proper) (htags : tags.length ≤ maxIndex + 1)
    (hstates : ∀ a ∈ r.content.automata, a.Within maxState)
    (hnamed : ∀ name ∈ r.childNames, name ∈ tags)
    (hattributes : ∀ name ∈ r.attributes, name ∈ attributes) :
    ∃ r', decodeRule tags attributes r.tag (encodeRule tags attributes r) = .ok r' ∧
      r.Alike r' := by
  obtain ⟨e, he, halike⟩ := exists_decodeContent hproper htags hstates hnamed
  refine ⟨{ r with content := e }, ?_, ⟨rfl, rfl, rfl, halike⟩⟩
  show (do
    let kind ← decodeKind (.nat r.kind.code)
    let names ← ((r.attributes.filterMap attributes.idxOf?).map Json.nat).mapM
      (entryAt "attribute index" attributes)
    let content ← decodeContent tags (encodeContent tags r.content)
    return ({ tag := r.tag, kind, attributes := names.eraseDups, content } : ElementRule)) = _
  rw [decodeKind_code, mapM_entryAt _ hattributes, he]
  show Except.ok ({ r with attributes := r.attributes.eraseDups, content := e } : ElementRule) = _
  rw [eraseDups_of_nodup hproper.attributes]

/-- So are the entries of all rules, **in their order**. By induction on the rules. -/
theorem exists_decodeRules {rs : List (String × ElementRule)} (htag : ∀ p ∈ rs, p.2.tag = p.1)
    (h : ∀ p ∈ rs, ∃ r', decodeRule tags attributes p.2.tag (encodeRule tags attributes p.2) =
      .ok r' ∧ p.2.Alike r') :
    ∃ rs', decodeRules tags attributes (rs.map fun p => (p.1, encodeRule tags attributes p.2)) =
      .ok rs' ∧ List.Forall₂ (fun p q => p.1 = q.1 ∧ p.2.Alike q.2) rs rs' := by
  induction rs with
  | nil => exact ⟨[], rfl, .nil⟩
  | cons p rest ih =>
      obtain ⟨r', hr', halike⟩ := h p List.mem_cons_self
      obtain ⟨rest', hrest', hall⟩ :=
        ih (fun q hq => htag q (List.mem_cons_of_mem p hq)) fun q hq =>
        h q (List.mem_cons_of_mem p hq)
      rw [htag p List.mem_cons_self] at hr'
      refine ⟨(p.1, r') :: rest', ?_, .cons ⟨rfl, halike⟩ hall⟩
      rw [List.map_cons, decodeRules, hr', hrest']
      rfl

/-! ## Schemas -/

/-- The start is written as its place among the declared tags, and read back. -/
theorem decodeStart_of_mem {declared more : List String} {start : Option String}
    (h : ∀ tag, start = some tag → tag ∈ declared) :
    decodeStart declared ((start.bind (declared ++ more).idxOf?).map Json.nat) = .ok start := by
  cases start with
  | none => rfl
  | some tag =>
      obtain ⟨i, hi⟩ := exists_idxOf? (h tag rfl)
      have hfirst : (declared ++ more).idxOf? tag = some i := by
        rw [List.idxOf?, List.findIdx?_append]
        rw [List.idxOf?] at hi
        rw [hi, Option.some_or]
      rw [Option.bind_some, hfirst, Option.map_some]
      show (do return some (← entryAt "start index" declared (.nat i))) = _
      rw [entryAt_idxOf? hi]
      rfl

/-- The parts of an encoding are read in their places, whether or not a start
is written. -/
theorem decode_encode_eq_decodeParts (s : Schema) :
    decode (encode s) = decodeParts (.strings (allTags s)) (.strings (allAttributes s))
      (.array (s.rules.map (encodeRule (allTags s) (allAttributes s))))
      ((s.start.bind (allTags s).idxOf?).map Json.nat) := by
  unfold encode
  dsimp only
  cases (s.start.bind (allTags s).idxOf?).map Json.nat with
  | none => rfl
  | some i => rfl

theorem length_rules_eq (s : Schema) : s.rules.length = s.tags.length := by
  rw [Schema.rules, Schema.tags, OrderedTable.values, OrderedTable.keys, List.length_map,
    List.length_map]

/-- Every declared tag meets **its own entry**. The tags that are not declared have
none, so they are cut off. -/
theorem zip_allTags_rules (s : Schema) (f : ElementRule → Json) :
    (allTags s).zip (s.rules.map f) = s.elements.entries.map fun p => (p.1, f p.2) := by
  obtain ⟨more, hmore⟩ := exists_allTags_eq s
  have hlength : s.tags.length = (s.rules.map f).length := by
    rw [List.length_map, length_rules_eq]
  rw [hmore, ← List.append_nil (s.rules.map f), List.zip_append hlength, List.zip_nil_right,
    List.append_nil, Schema.rules, Schema.tags, OrderedTable.values, OrderedTable.keys,
      List.map_map, List.zip_map']
  rfl

/-- Reading an encoding is reading its **entries and its start**. Its lists of tags and
of attributes are read back as they were. -/
theorem decode_encode_eq (hstart : ∀ tag, s.start = some tag → tag ∈ s.tags) :
    decode (encode s) = (do
      let rules ← decodeRules (allTags s) (allAttributes s)
        (s.elements.entries.map fun p => (p.1, encodeRule (allTags s) (allAttributes s) p.2))
      return { elements := .ofList rules, start := s.start }) := by
  obtain ⟨more, hmore⟩ := exists_allTags_eq s
  have hlength : (s.rules.map (encodeRule (allTags s) (allAttributes s))).length =
      s.tags.length := by
    rw [List.length_map, length_rules_eq]
  have hcount : s.tags.length ≤ (allTags s).length := by
    rw [hmore, List.length_append]
    omega
  have htake : (allTags s).take s.tags.length = s.tags := by
    rw [hmore, List.take_left]
  have hread : decodeStart s.tags ((s.start.bind (allTags s).idxOf?).map Json.nat) =
      .ok s.start := by
    rw [hmore]
    exact decodeStart_of_mem hstart
  rw [decode_encode_eq_decodeParts, decodeParts_strings _ (hlength ▸ hcount), hlength,
    zip_allTags_rules, htake, hread]
  rfl

/-- A schema that is proper and fits its words is read back as one that is **alike**. It
puts together what was shown of the entries and of the start. -/
theorem exists_decode (hproper : s.Proper) (hfits : s.FitsWords) :
    ∃ s', decode (encode s) = .ok s' ∧ s.Alike s' := by
  have hrules : ∀ p ∈ s.elements.entries, ∃ r', decodeRule (allTags s) (allAttributes s) p.2.tag
      (encodeRule (allTags s) (allAttributes s) p.2) = .ok r' ∧ p.2.Alike r' := by
    intro p hp
    have hr : p.2 ∈ s.rules := List.mem_map_of_mem hp
    exact exists_decodeRule (hproper.rule p hp) hfits.tags (hfits.states p.2 hr)
      (fun _ h => mem_allTags_of_mem_childNames hr h) fun _ h => mem_allAttributes hr h
  obtain ⟨rs, hrs, hall⟩ := exists_decodeRules hproper.tag hrules
  -- no tag is declared twice, so no entry that is read replaces another
  have hnodup : (rs.map Prod.fst).Nodup := by
    rw [← Schema.map_fst_eq_of_forall₂ hall]
    exact s.elements.keys_nodup
  have hentries : (OrderedTable.ofList rs).entries = rs := OrderedTable.entries_ofList hnodup
  refine ⟨{ elements := .ofList rs, start := s.start }, ?_, ?_, rfl⟩
  · rw [decode_encode_eq hproper.start, hrs]
    rfl
  · show List.Forall₂ _ s.elements.entries (OrderedTable.ofList rs).entries
    rw [hentries]
    exact hall

/-- A schema that has been read fits its words, if there are indices for its tags. A
number that was read has passed through a word already. -/
theorem fitsWords_of_decode {v : Json} (h : decode v = .ok s)
    (htags : (allTags s).length ≤ maxIndex + 1) : s.FitsWords := ⟨(proper_of_decode h).2, htags⟩

/-! ## The round trip -/

/-- Whatever schema is obtained can be **written down and read back**. What is read has
the same tags in the same order, the same kinds, attributes and start, and reports the
same violations in the same order for every tree and every document, whatever the mode,
the bounds and the tie-break. -/
theorem decode_encode (h : s.Obtained) (hfits : s.FitsWords) :
    ∃ s', decode (encode s) = .ok s' ∧ s'.tags = s.tags ∧
      s'.rules.map ElementRule.kind = s.rules.map ElementRule.kind ∧
      s'.rules.map ElementRule.attributes = s.rules.map ElementRule.attributes ∧
      s'.start = s.start ∧ s.ReportsLike s' ∧
      ∀ tieBreak, (s.withTieBreak tieBreak).ReportsLike (s'.withTieBreak tieBreak) := by
  obtain ⟨s', hread, halike⟩ := exists_decode h.proper hfits
  refine ⟨s', hread, halike.tags_eq.symm, halike.kinds_eq.symm, halike.attributes_eq.symm,
    halike.start.symm, halike.reportsLike, fun tieBreak => ?_⟩
  exact (halike.withTieBreak tieBreak).reportsLike

/-- A list of items that a note may end, and items of text beside a note. Notes are
not declared. -/
def listing : Json :=
  .array
    [ .strings ["list", "item", "note"],
      .strings ["id"],
      .array
        [ .array [.nat 1, .array [.nat 0], .object
            [ ("7", .object [("1", .nat 7), ("2", .string "E"), ("E", .string "E")]),
              ("S", .object [("1", .nat 7)]) ]],
          .array [.nat 0, .array [], .array
            [ .object [("S", .object [("E", .string "E"), ("T", .string "E")])],
              .object [("S", .object [("2", .string "E")])] ]] ],
      .nat 0 ]

/-- The schema that `listing` encodes. -/
def listingSchema : Schema where
  elements := .ofList
    [ ("list", ⟨"list", .element, ["id"], .single (.ofEdges
        [ ⟨.id 7, .token (.element "item"), .id 7⟩, ⟨.id 7, .token (.element "note"), .fin⟩,
          ⟨.id 7, .epsilon, .fin⟩, ⟨.start, .token (.element "item"), .id 7⟩ ])⟩),
      ("item", ⟨"item", .text, [], .interleave
        [ .ofEdges [⟨.start, .epsilon, .fin⟩, ⟨.start, .token .text, .fin⟩],
          .ofEdges [⟨.start, .token (.element "note"), .fin⟩] ] .firstMatch⟩) ]
  start := some "list"

/-- The state 7 gets the number 0 on the way, so what is read back is another schema,
and reports the same. -/
theorem decode_encode_listing : decode listing = .ok listingSchema ∧ listingSchema.FitsWords ∧
    ∃ s', decode (encode listingSchema) = .ok s' ∧ s'.tags = ["list", "item"] ∧
      s'.start = some "list" ∧ listingSchema.ReportsLike s' := by
  have hread : decode listing = .ok listingSchema := rfl
  have hle : (allTags listingSchema).length ≤ ["list", "item", "note"].length :=
    length_allTags_le (by decide) (by decide)
  have hfits : listingSchema.FitsWords := fitsWords_of_decode hread (Nat.le_trans hle (by decide))
  obtain ⟨s', hs', htags, -, -, hstart, hreports, -⟩ := decode_encode (.decoded hread) hfits
  exact ⟨hread, hfits, s', hs', htags, hstart, hreports⟩

end Compact

end TreeGrammar
