/-
What a reading that succeeds has read.

Reading an encoding can fail at each of its parts, so a reading that does not fail has
found each part in its form and has read all that is in it. Here that is said once for
each function that reads: of a list that its items are read one by one, of everything
else what it was made of. What schemas that are read have in common, and what the values
have that they are read from, is then said of these parts.
-/
import Mathlib.Data.List.Forall2
import TreeGrammar.Proofs.Compile.Yields
import TreeGrammar.Proofs.Table
import TreeGrammar.Schema.Compact

set_option autoImplicit false

namespace TreeGrammar

/-! ## Lists read item by item -/

section Items

variable {α β ε : Type} {f : α → Except ε β}

/-- A list is made of another **item by item**. -/
theorem forall₂_of_mapM {xs : List α} {ys : List β} (h : xs.mapM f = .ok ys) :
    List.Forall₂ (fun x y => f x = .ok y) xs ys := by
  induction xs generalizing ys with
  | nil =>
      rw [List.mapM_nil] at h
      rw [← Except.ok.inj h]
      exact .nil
  | cons x xs ih =>
      rw [List.mapM_cons] at h
      obtain ⟨y, hy, h⟩ := Pattern.bind_eq_ok h
      obtain ⟨rest, hrest, h⟩ := Pattern.bind_eq_ok h
      rw [← Except.ok.inj h]
      exact .cons hy (ih hrest)

/-- If every item is read back from what it is written as, **a list is**, item by item.
Writing and reading are both done item by item, so only items remain. -/
theorem exists_mapM_map {γ : Type} {g : γ → α} {R : γ → β → Prop} {xs : List γ}
    (h : ∀ x ∈ xs, ∃ y, f (g x) = .ok y ∧ R x y) :
    ∃ ys, (xs.map g).mapM f = .ok ys ∧ List.Forall₂ R xs ys := by
  induction xs with
  | nil => exact ⟨[], rfl, .nil⟩
  | cons x xs ih =>
      obtain ⟨y, hy, hR⟩ := h x List.mem_cons_self
      obtain ⟨ys, hys, hall⟩ := ih fun x' hx' => h x' (List.mem_cons_of_mem x hx')
      refine ⟨y :: ys, ?_, .cons hR hall⟩
      rw [List.map_cons, List.mapM_cons, hy, hys]
      rfl

/-- Items that were written one by one are **read back one by one**, whatever kind of items
they are. -/
theorem mapM_map_eq_ok {γ : Type} {g : γ → α} {f : α → Except ε γ} {xs : List γ}
    (h : ∀ x ∈ xs, f (g x) = .ok x) : (xs.map g).mapM f = .ok xs := by
  obtain ⟨ys, hys, hall⟩ := exists_mapM_map (R := Eq) fun x hx => ⟨x, h x hx, rfl⟩
  rw [List.forall₂_eq_eq_eq] at hall
  rw [hys, ← hall]

/-- Every item on the right **has a partner** on the left. -/
theorem exists_left_of_forall₂ {R : α → β → Prop} {xs : List α} {ys : List β}
    (h : List.Forall₂ R xs ys) {y : β} (hy : y ∈ ys) : ∃ x ∈ xs, R x y := by
  induction h with
  | nil => exact absurd hy List.not_mem_nil
  | cons hpartners _ ih =>
      rcases List.mem_cons.mp hy with rfl | hrest
      · exact ⟨_, List.mem_cons_self, hpartners⟩
      · obtain ⟨x, hx, hR⟩ := ih hrest
        exact ⟨x, List.mem_cons_of_mem _ hx, hR⟩

end Items

namespace Compact

variable {tags attributes : List String} {v : Json} {part : String}

/-- Items are read exactly off **an array**, and they are the array's own. -/
theorem items_eq_ok_iff {list : List Json} : items part v = .ok list ↔ v = .array list := by
  cases v <;> simp [items]

theorem mapM_stringIn (part : String) (list : List String) :
    (list.map Json.string).mapM (stringIn part) = .ok list :=
  mapM_map_eq_ok fun _ _ => rfl

theorem eq_strings_of_mapM {list : List Json} (h : list.mapM (stringIn part) = .ok tags) :
    Json.array list = .strings tags := by
  have hitem (x : Json) (s : String) (hs : stringIn part x = .ok s) : x = .string s := by
    cases x <;> simp_all [stringIn]
  have hitems := (forall₂_of_mapM h).imp hitem
  rw [← List.forall₂_map_right_iff, List.forall₂_eq_eq_eq] at hitems
  rw [hitems, Json.strings]

theorem exists_of_entryAt {list : List String} {entry : String}
    (h : entryAt part list v = .ok entry) : ∃ i, natural? v = some i ∧ list[i]? = some entry := by
  unfold entryAt at h
  split at h
  · next found hfound =>
      cases h
      exact Option.bind_eq_some_iff.mp hfound
  · cases h

/-! ## Tables -/

/-- A row has **an edge for each member**. The edges have the source of the row, and
label and target from the member. -/
theorem forall₂_of_decodeRow {source : State} {row : List (String × Json)} {es : List Edge}
    (h : decodeRow tags source row = .ok es) :
    List.Forall₂ (fun q e => decodeLabel tags q.1 = .ok e.label ∧ decodeTarget q.2 = .ok e.target ∧
      e.source = source) row es := by
  induction row generalizing es with
  | nil =>
      cases h
      exact .nil
  | cons q rest ih =>
      rw [decodeRow] at h
      obtain ⟨l, hl, h⟩ := Pattern.bind_eq_ok h
      obtain ⟨t, ht, h⟩ := Pattern.bind_eq_ok h
      obtain ⟨more, hmore, h⟩ := Pattern.bind_eq_ok h
      cases h
      exact .cons ⟨hl, ht, rfl⟩ (ih hmore)

/-- Rows have their edges **one after the other**. -/
theorem exists_of_decodeRows {rows : List (String × Json)} {es : List Edge}
    (h : decodeRows tags rows = .ok es) : ∃ blocks : List (List Edge), es = blocks.flatten ∧
      List.Forall₂ (fun p block => ∃ source row, decodeState p.1 = .ok source ∧ p.2 = .object row ∧
        decodeRow tags source row = .ok block) rows blocks := by
  induction rows generalizing es with
  | nil =>
      cases h
      exact ⟨[], rfl, .nil⟩
  | cons p rest ih =>
      obtain ⟨code, v⟩ := p
      rw [decodeRows] at h
      obtain ⟨source, hsource, h⟩ := Pattern.bind_eq_ok h
      split at h
      · obtain ⟨block, hblock, h⟩ := Pattern.bind_eq_ok h
        obtain ⟨more, hmore, h⟩ := Pattern.bind_eq_ok h
        cases h
        obtain ⟨blocks, rfl, hblocks⟩ := ih hmore
        exact ⟨block :: blocks, rfl, .cons ⟨source, _, hsource, rfl, hblock⟩ hblocks⟩
      · exact absurd h Pattern.throw_ne_ok

/-- A table is read from its rows, **and checked**. The check is of the same rules that
compiled tables keep. -/
theorem exists_of_decodeAutomaton {a : Automaton} (h : decodeAutomaton tags v = .ok a) :
    ∃ rows es, v = .object rows ∧ decodeRows tags rows = .ok es ∧ a = .ofEdges es ∧
      a.problems = [] := by
  unfold decodeAutomaton at h
  split at h
  · next rows =>
      obtain ⟨es, hes, h⟩ := Pattern.bind_eq_ok h
      dsimp only at h
      split at h
      · next hproblems =>
          cases h
          exact ⟨rows, es, rfl, hes, rfl, List.isEmpty_iff.mp hproblems⟩
      · exact absurd h Pattern.throw_ne_ok
  · cases h

/-- The **tables** of a content: each block of an interleave has one. -/
def tables : Json → List Json
  | .array blocks => blocks
  | v => [v]

/-- A content has **an automaton for each table**, and the leftmost block wins a tie. -/
theorem forall₂_of_decodeContent {e : Expression} (h : decodeContent tags v = .ok e) :
    List.Forall₂ (fun table a => decodeAutomaton tags table = .ok a) (tables v) e.automata ∧
      e.withTieBreak .firstMatch = e := by
  unfold decodeContent at h
  split at h
  · obtain ⟨as, has, h⟩ := Pattern.bind_eq_ok h
    cases h
    exact ⟨forall₂_of_mapM has, rfl⟩
  · next hcontent =>
      obtain ⟨a, ha, h⟩ := Pattern.bind_eq_ok h
      cases h
      have htables : tables v = [v] := by
        unfold tables
        split
        · next blocks => exact absurd rfl (hcontent blocks)
        · rfl
      rw [htables]
      exact ⟨.cons ha .nil, rfl⟩

/-! ## Entries -/

/-- A kind that was read was written as **a number that is a kind's code**. -/
theorem exists_of_decodeKind {kind : ElementKind} (h : decodeKind v = .ok kind) :
    ∃ n, natural? v = some n ∧ ElementKind.ofCode? n = some kind := by
  unfold decodeKind at h
  split at h
  · cases h
  · next n hn =>
      split at h
      · next found hfound =>
          cases h
          exact ⟨n, hn, hfound⟩
      · cases h

/-- A rule is read from an array of a code, of indices and of a content. -/
theorem exists_of_decodeRule {tag : String} {r : ElementRule}
    (h : decodeRule tags attributes tag v = .ok r) :
    ∃ code indices content kind names e, v = .array [code, .array indices, content] ∧
      decodeKind code = .ok kind ∧
      indices.mapM (entryAt "attribute index" attributes) = .ok names ∧
      decodeContent tags content = .ok e ∧
      r = { tag, kind, attributes := names.eraseDups, content := e } := by
  rw [decodeRule] at h
  obtain ⟨fields, hfields, h⟩ := Pattern.bind_eq_ok h
  split at h
  · next code indexValue content =>
      obtain ⟨kind, hkind, h⟩ := Pattern.bind_eq_ok h
      obtain ⟨indices, hindices, h⟩ := Pattern.bind_eq_ok h
      obtain ⟨names, hnames, h⟩ := Pattern.bind_eq_ok h
      obtain ⟨e, he, h⟩ := Pattern.bind_eq_ok h
      cases h
      refine ⟨code, indices, content, kind, names, e, ?_, hkind, hnames, he, rfl⟩
      rw [items_eq_ok_iff.mp hfields, items_eq_ok_iff.mp hindices]
  · exact absurd h Pattern.throw_ne_ok

/-- Entries are read **one by one**, each under its tag. -/
theorem forall₂_of_decodeRules {entries : List (String × Json)} {rs : List (String × ElementRule)}
    (h : decodeRules tags attributes entries = .ok rs) :
    List.Forall₂ (fun p q => q.1 = p.1 ∧ decodeRule tags attributes p.1 p.2 = .ok q.2)
      entries rs := by
  induction entries generalizing rs with
  | nil =>
      cases h
      exact .nil
  | cons p rest ih =>
      rw [decodeRules] at h
      obtain ⟨r, hr, h⟩ := Pattern.bind_eq_ok h
      obtain ⟨more, hmore, h⟩ := Pattern.bind_eq_ok h
      cases h
      exact .cons ⟨rfl, mapError_eq_ok hr⟩ (ih hmore)

/-- Rules that are read stand under **the tags of their entries**, in order. The tag
comes from the list of tags and not from the entry. -/
theorem map_fst_of_decodeRules {entries : List (String × Json)} {rs : List (String × ElementRule)}
    (h : decodeRules tags attributes entries = .ok rs) :
    rs.map Prod.fst = entries.map Prod.fst := by
  have hkeys := (forall₂_of_decodeRules h).imp fun p q hpq => hpq.1.symm
  rwa [← List.forall₂_map_right_iff, ← List.forall₂_map_left_iff, List.forall₂_eq_eq_eq,
    eq_comm] at hkeys

/-! ## Whole encodings -/

/-- A start is missing or null, or the name under an index. -/
theorem cases_of_decodeStart {declared : List String} {start : Option Json} {tag : Option String}
    (h : decodeStart declared start = .ok tag) :
    (tag = none ∧ ∀ v ∈ start, v = .null) ∨
      ∃ v name, start = some v ∧ tag = some name ∧ entryAt "start index" declared v = .ok name := by
  unfold decodeStart at h
  split at h
  · cases h
    exact .inl ⟨rfl, nofun⟩
  · cases h
    exact .inl ⟨rfl, fun v hv => (Option.some.inj hv).symm⟩
  · next v hnull =>
      obtain ⟨name, hname, h⟩ := Pattern.bind_eq_ok h
      cases h
      exact .inr ⟨v, name, rfl, rfl, hname⟩

/-- The **parts** of an encoding. -/
structure Parts where
  /-- The tags, those of declared elements first. -/
  tags : List String
  /-- The names of attributes. -/
  attributes : List String
  /-- The entries of the declared elements. -/
  entries : List Json
  /-- The index of the start element, if it is given. -/
  start : Option Json

/-- The value that has the parts. -/
def Parts.value (x : Parts) : Json :=
  .array ([.strings x.tags, .strings x.attributes, .array x.entries] ++ x.start.toList)

/-- A schema **is read of parts**: a rule of each entry under the tag in its place, and
the start of the index. -/
structure Parts.Makes (x : Parts) (rs : List (String × ElementRule)) (s : Schema) : Prop where
  count : x.entries.length ≤ x.tags.length
  rules : decodeRules x.tags x.attributes (x.tags.zip x.entries) = .ok rs
  start : decodeStart (x.tags.take x.entries.length) x.start = .ok s.start
  schema : s = { elements := .ofList rs, start := s.start }

namespace Parts.Makes

variable {x : Parts} {rs : List (String × ElementRule)} {s : Schema}

theorem elements (h : x.Makes rs s) : s.elements = .ofList rs := congrArg Schema.elements h.schema

/-- With no more entries than tags, the **declared tags** are those that come first. The
tags after them are those of elements that are mentioned only. -/
theorem map_fst (h : x.Makes rs s) : rs.map Prod.fst = x.tags.take x.entries.length := by
  rw [map_fst_of_decodeRules h.rules, List.zip_eq_zip_take_min, Nat.min_eq_right h.count,
    List.take_length, List.map_fst_zip]
  exact Nat.le_of_eq (List.length_take_of_le h.count)

theorem mem_tags_iff (h : x.Makes rs s) {tag : String} :
    tag ∈ s.tags ↔ tag ∈ x.tags.take x.entries.length := by
  rw [Schema.tags, h.elements, OrderedTable.mem_keys_ofList_iff, h.map_fst]

end Parts.Makes

/-- An encoding that can be read **has its parts in the right forms**, and the parts make
the schema that was read. All that is shown of decoded schemas starts here. -/
theorem exists_of_decodeParts {tagValue attributeValue entryValue : Json} {start : Option Json}
    {s : Schema} (h : decodeParts tagValue attributeValue entryValue start = .ok s) :
    ∃ tags attributes entries rs, tagValue = .strings tags ∧ attributeValue = .strings attributes ∧
      entryValue = .array entries ∧ (⟨tags, attributes, entries, start⟩ : Parts).Makes rs s := by
  rw [decodeParts] at h
  obtain ⟨tagItems, htagItems, h⟩ := Pattern.bind_eq_ok h
  obtain ⟨tags, htags, h⟩ := Pattern.bind_eq_ok h
  obtain ⟨attributeItems, hattributeItems, h⟩ := Pattern.bind_eq_ok h
  obtain ⟨attributes, hattributes, h⟩ := Pattern.bind_eq_ok h
  obtain ⟨entries, hentries, h⟩ := Pattern.bind_eq_ok h
  dsimp only at h
  split at h
  · obtain ⟨_, hthrow, -⟩ := Pattern.bind_eq_ok h
    exact absurd hthrow Pattern.throw_ne_ok
  · next hcount =>
      obtain ⟨rs, hrs, h⟩ := Pattern.bind_eq_ok h
      obtain ⟨declared, hstart, h⟩ := Pattern.bind_eq_ok h
      cases h
      refine ⟨tags, attributes, entries, rs, ?_, ?_, items_eq_ok_iff.mp hentries,
        Nat.not_lt.mp hcount, hrs, hstart, rfl⟩
      · rw [items_eq_ok_iff.mp htagItems, eq_strings_of_mapM htags]
      · rw [items_eq_ok_iff.mp hattributeItems, eq_strings_of_mapM hattributes]

/-- Parts that are lists of strings and a list of entries, no more than there are tags,
are read entry by entry. -/
theorem decodeParts_strings {entries : List Json} (start : Option Json)
    (h : entries.length ≤ tags.length) : decodeParts (.strings tags) (.strings attributes)
    (.array entries) start = (do
      let rules ← decodeRules tags attributes (tags.zip entries)
      let start ← decodeStart (tags.take entries.length) start
      return { elements := .ofList rules, start }) := by
  have hcount : ¬ tags.length < entries.length := by omega
  show (do
    let tags ← (tags.map Json.string).mapM (stringIn "tag names")
    let attributes ← (attributes.map Json.string).mapM (stringIn "attribute names")
    if tags.length < entries.length then
      throw (DecodeCause.moreElementsThanTags entries.length tags.length)
    let rules ← decodeRules tags attributes (tags.zip entries)
    let start ← decodeStart (tags.take entries.length) start
    return ({ elements := .ofList rules, start } : Schema)) = _
  rw [mapM_stringIn, mapM_stringIn]
  show (if tags.length < entries.length then _ else _) = _
  rw [if_neg hcount]

/-- A value is read exactly if it **has parts that a schema is read of**. The value is
taken apart once, and every other lemma speaks of its parts. -/
theorem decode_eq_ok_iff {s : Schema} :
    decode v = .ok s ↔ ∃ (x : Parts) (rs : List (String × ElementRule)), v = x.value ∧
      x.Makes rs s := by
  constructor
  · intro h
    rw [decode] at h
    obtain ⟨parts, hparts, h⟩ := Pattern.bind_eq_ok h
    rw [items_eq_ok_iff.mp hparts]
    split at h
    · obtain ⟨tags, attributes, entries, rs, rfl, rfl, rfl, hmakes⟩ := exists_of_decodeParts h
      exact ⟨_, rs, rfl, hmakes⟩
    · obtain ⟨tags, attributes, entries, rs, rfl, rfl, rfl, hmakes⟩ := exists_of_decodeParts h
      exact ⟨_, rs, rfl, hmakes⟩
    · exact absurd h Pattern.throw_ne_ok
  · rintro ⟨⟨tags, attributes, entries, start⟩, rs, rfl, hmakes⟩
    have hparts : decode (Parts.value ⟨tags, attributes, entries, start⟩) =
        decodeParts (.strings tags) (.strings attributes) (.array entries) start := by
      cases start <;> rfl
    rw [hparts, decodeParts_strings start hmakes.count, hmakes.rules, hmakes.schema, hmakes.start]
    rfl

end Compact

end TreeGrammar
