/-
What can be read as a schema.

An encoding is full of indices and codes, and each of them leads into a list of another
length: an entry has its tag in the list of tags, an attribute its name in that of the
attributes, a token its tag among all tags and the start its tag among the declared
ones, and a state has a number of 32 bits. Reading looks each of them up before it is
used and fails where there is nothing. So what can be read is exactly what has all of
them in range and tables that keep the rules, and the names in what is read are names
that the value gives.
-/
import TreeGrammar.Proofs.Schema.Obtained

set_option autoImplicit false

namespace TreeGrammar

/-- A table that is built from edges has none that was not in the list. Some may have
been replaced. So what holds of all edges that were read holds of the table. -/
theorem Automaton.mem_of_mem_edges_ofEdges {es : List Edge} {e : Edge}
    (h : e ∈ (ofEdges es).edges) : e ∈ es := by
  rcases mem_of_target_insertAll ((mem_edges_iff _ e).mp h) with hmem | hnone
  · exact hmem
  · exact absurd hnone (by simp)

/-- The names in a rule are **among the given ones**: its attributes, and the elements
on the edges of its tables. -/
structure ElementRule.NamesIn (tags attributes : List String) (r : ElementRule) : Prop where
  attributes : r.attributes ⊆ attributes
  elements : ∀ a ∈ r.content.automata, ∀ e ∈ a.edges, ∀ name, e.label = .token (.element name) →
      name ∈ tags

/-! ## Steps that succeed -/

section Steps

variable {α β ε : Type}

/-- Two steps succeed exactly if the first does **and the second does with its result**.
Reading is a chain of such steps, and its success is taken apart with this. -/
theorem exists_bind_iff {x : Except ε α} {f : α → Except ε β} :
    (∃ b, (x >>= f) = .ok b) ↔ ∃ a, x = .ok a ∧ ∃ b, f a = .ok b := by
  constructor
  · rintro ⟨b, h⟩
    obtain ⟨a, ha, hb⟩ := Pattern.bind_eq_ok h
    exact ⟨a, ha, b, hb⟩
  · rintro ⟨a, rfl, b, hb⟩
    exact ⟨b, hb⟩

theorem exists_pure_iff {a : α} : (∃ b, (pure a : Except ε α) = .ok b) ↔ True :=
  iff_of_true ⟨a, rfl⟩ trivial

theorem exists_mapError_iff {ε' : Type} {g : ε → ε'} {x : Except ε α} :
    (∃ a, x.mapError g = .ok a) ↔ ∃ a, x = .ok a := by
  cases x with
  | error e => exact iff_of_false (fun ⟨a, h⟩ => nomatch h) fun ⟨a, h⟩ => nomatch h
  | ok a => exact iff_of_true ⟨a, rfl⟩ ⟨a, rfl⟩

/-- A list can be read exactly if **each of its items can**. The results need not be known
for that. -/
theorem exists_mapM_iff {f : α → Except ε β} {xs : List α} :
    (∃ ys, xs.mapM f = .ok ys) ↔ ∀ x ∈ xs, ∃ y, f x = .ok y := by
  induction xs with
  | nil => exact iff_of_true ⟨[], rfl⟩ nofun
  | cons x xs ih =>
      rw [List.mapM_cons, exists_bind_iff, List.forall_mem_cons, ← ih]
      simp only [exists_bind_iff, exists_pure_iff, and_true, exists_and_right]

end Steps

namespace Compact

/-! ## Indices and codes in range -/

/-- The value is an **index** into a list of some length. -/
def IsIndex (length : Nat) (v : Json) : Prop := ∃ i < length, natural? v = some i

/-- The code of a state: a letter, or a number of 32 bits. -/
def IsStateCode (code : String) : Prop :=
  code = startCode ∨ code = finCode ∨ ∃ n ≤ maxState, readNatural? maxState code = some n

/-- The state that an edge enters, by its code or by its number. -/
def IsTarget (v : Json) : Prop :=
  (∃ code, v = .string code ∧ IsStateCode code) ∨ ∃ n ≤ maxState, natural? v = some n

/-- The code of a label: a letter, or the **index of a tag**. -/
def IsLabelCode (tagCount : Nat) (code : String) : Prop :=
  code = epsilonCode ∨ code = textCode ∨ ∃ i < tagCount, readNatural? maxIndex code = some i

/-- **Rows** under the codes of states, and in each row states under the
codes of labels. -/
def AreRows (tagCount : Nat) (rows : List (String × Json)) : Prop :=
  ∀ p ∈ rows, IsStateCode p.1 ∧ ∃ row, p.2 = .object row ∧ ∀ q ∈ row, IsLabelCode tagCount q.1 ∧
    IsTarget q.2

/-- A **table**: rows whose edges keep the rules of automata. -/
def IsTable (tags : List String) (v : Json) : Prop :=
  ∃ rows, v = .object rows ∧ AreRows tags.length rows ∧
    ∀ es, decodeRows tags rows = .ok es → (Automaton.ofEdges es).problems = []

/-- An **entry**: the code of a kind, indices of attributes, and tables. -/
def IsEntry (tags attributes : List String) (v : Json) : Prop :=
  ∃ code indices content, v = .array [code, .array indices, content] ∧
    (∃ n kind, natural? code = some n ∧ ElementKind.ofCode? n = some kind) ∧
    (∀ x ∈ indices, IsIndex attributes.length x) ∧ ∀ table ∈ tables content, IsTable tags table

/-- The parts of an encoding are **well formed**: there is a tag for each entry, every
index and every code is in range, and every table keeps the rules. -/
structure Parts.WellFormed (x : Parts) : Prop where
  count : x.entries.length ≤ x.tags.length
  entry : ∀ v ∈ x.entries, IsEntry x.tags x.attributes v
  start : ∀ v ∈ x.start, v = .null ∨ IsIndex x.entries.length v

/-! ## What can be read -/

variable {tags attributes : List String} {v : Json} {part code : String}

/-- An index is looked up exactly if it is **in range**. -/
theorem exists_entryAt_iff {list : List String} :
    (∃ entry, entryAt part list v = .ok entry) ↔ IsIndex list.length v := by
  constructor
  · rintro ⟨entry, h⟩
    obtain ⟨i, hi, hentry⟩ := exists_of_entryAt h
    exact ⟨i, (List.getElem?_eq_some_iff.mp hentry).1, hi⟩
  · rintro ⟨i, hlt, hi⟩
    refine ⟨list[i], ?_⟩
    rw [entryAt, hi, Option.bind_some, List.getElem?_eq_getElem hlt]

/-- A state can be read exactly if its code is **one of the two names or a
number** that fits. -/
theorem exists_decodeState_iff : (∃ s, decodeState code = .ok s) ↔ IsStateCode code := by
  unfold decodeState
  by_cases hstart : code = startCode
  · rw [if_pos hstart]
    exact iff_of_true ⟨_, rfl⟩ (.inl hstart)
  · by_cases hfin : code = finCode
    · rw [if_neg hstart, if_pos hfin]
      exact iff_of_true ⟨_, rfl⟩ (.inr (.inl hfin))
    · rw [if_neg hstart, if_neg hfin, IsStateCode, or_iff_right hstart, or_iff_right hfin]
      cases hn : readNatural? maxState code with
      | none => simp
      | some n => exact iff_of_true ⟨_, rfl⟩ ⟨n, le_of_readNatural? hn, rfl⟩

theorem exists_decodeTarget_iff : (∃ s, decodeTarget v = .ok s) ↔ IsTarget v := by
  constructor
  · rintro ⟨s, h⟩
    unfold decodeTarget at h
    split at h
    · next code => exact .inl ⟨code, rfl, exists_decodeState_iff.mp ⟨s, h⟩⟩
    · split at h
      · next n hn =>
          obtain ⟨hnatural, hle⟩ := Option.filter_eq_some_iff.mp hn
          exact .inr ⟨n, of_decide_eq_true hle, hnatural⟩
      · cases h
  · rintro (⟨code, rfl, hcode⟩ | ⟨n, hle, hn⟩)
    · exact exists_decodeState_iff.mpr hcode
    · refine ⟨.id n, ?_⟩
      have hfits : (natural? v).filter (fun k => decide (k ≤ maxState)) = some n :=
        Option.filter_eq_some_iff.mpr ⟨hn, decide_eq_true hle⟩
      cases v with
      | number m =>
          unfold decodeTarget
          dsimp only
          rw [hfits]
      | null | bool | string | array | object => cases hn

/-- A label can be read exactly if its code is **a mark or the number of a tag**
that is there. -/
theorem exists_decodeLabel_iff : (∃ l, decodeLabel tags code = .ok l) ↔
    IsLabelCode tags.length code := by
  unfold decodeLabel
  by_cases hepsilon : code = epsilonCode
  · rw [if_pos hepsilon]
    exact iff_of_true ⟨_, rfl⟩ (.inl hepsilon)
  · by_cases htext : code = textCode
    · rw [if_neg hepsilon, if_pos htext]
      exact iff_of_true ⟨_, rfl⟩ (.inr (.inl htext))
    · rw [if_neg hepsilon, if_neg htext, IsLabelCode, or_iff_right hepsilon, or_iff_right htext]
      cases readNatural? maxIndex code with
      | none => simp
      | some i =>
          dsimp only
          cases hname : tags[i]? with
          | none => simpa using List.getElem?_eq_none_iff.mp hname
          | some name => simpa using (List.getElem?_eq_some_iff.mp hname).1

/-- A row is read exactly if **its codes are in range**. Members are read one by one, in
their order. -/
theorem exists_decodeRow_iff {source : State} {row : List (String × Json)} :
    (∃ es, decodeRow tags source row = .ok es) ↔ ∀ q ∈ row, IsLabelCode tags.length q.1 ∧
      IsTarget q.2 := by
  induction row with
  | nil => exact iff_of_true ⟨[], rfl⟩ nofun
  | cons q rest ih =>
      simp only [decodeRow, exists_bind_iff, exists_pure_iff, and_true, exists_and_right, ih,
        exists_decodeLabel_iff, exists_decodeTarget_iff, List.forall_mem_cons, and_assoc]

/-- The rows of a table can be read exactly if each member is a row, under the code
of a state. -/
theorem exists_decodeRows_iff {rows : List (String × Json)} :
    (∃ es, decodeRows tags rows = .ok es) ↔ AreRows tags.length rows := by
  unfold AreRows
  induction rows with
  | nil => exact iff_of_true ⟨[], rfl⟩ nofun
  | cons p rest ih =>
      obtain ⟨code, v⟩ := p
      rw [decodeRows, exists_bind_iff, List.forall_mem_cons, ← ih]
      cases v with
      | object row =>
          simp only [exists_bind_iff, exists_pure_iff, and_true, exists_and_right,
            exists_decodeState_iff, exists_decodeRow_iff, and_assoc, Json.object.injEq,
              exists_eq_left']
      | null | bool | number | string | array => simp [throw, throwThe, MonadExceptOf.throw]

/-- An automaton is read exactly from **a table**. Besides its codes, the rules that
automata keep are checked. -/
theorem exists_decodeAutomaton_iff : (∃ a, decodeAutomaton tags v = .ok a) ↔ IsTable tags v := by
  constructor
  · rintro ⟨a, h⟩
    obtain ⟨rows, es, rfl, hes, rfl, hproblems⟩ := exists_of_decodeAutomaton h
    refine ⟨rows, rfl, exists_decodeRows_iff.mp ⟨es, hes⟩, fun es' hes' => ?_⟩
    cases hes.symm.trans hes'
    exact hproblems
  · rintro ⟨rows, rfl, hrows, hrules⟩
    obtain ⟨es, hes⟩ := exists_decodeRows_iff.mpr hrows
    refine ⟨.ofEdges es, ?_⟩
    rw [decodeAutomaton, hes]
    exact if_pos (List.isEmpty_iff.mpr (hrules es hes))

/-- A content can be read exactly if **each of its tables** can be, and none of them is
refused. A value that is not an array is taken for one table. -/
theorem exists_decodeContent_iff :
    (∃ e, decodeContent tags v = .ok e) ↔ ∀ table ∈ tables v, IsTable tags table := by
  simp only [← exists_decodeAutomaton_iff]
  cases v with
  | array blocks =>
      simp only [decodeContent, exists_bind_iff, exists_pure_iff, and_true, exists_mapM_iff, tables]
  | null | bool | number | string | object =>
      simp only [decodeContent, exists_bind_iff, exists_pure_iff, and_true, tables,
        List.forall_mem_singleton]

theorem exists_decodeKind_iff :
    (∃ kind, decodeKind v = .ok kind) ↔ ∃ n kind, natural? v = some n ∧ ElementKind.ofCode? n =
      some kind := by
  constructor
  · rintro ⟨kind, h⟩
    obtain ⟨n, hn, hkind⟩ := exists_of_decodeKind h
    exact ⟨n, kind, hn, hkind⟩
  · rintro ⟨n, kind, hn, hkind⟩
    refine ⟨kind, ?_⟩
    rw [decodeKind, hn]
    dsimp only
    rw [hkind]

/-- A rule is read exactly from **an entry**. Its attributes and its kind are looked up
by index and by code. -/
theorem exists_decodeRule_iff {tag : String} :
    (∃ r, decodeRule tags attributes tag v = .ok r) ↔ IsEntry tags attributes v := by
  constructor
  · rintro ⟨r, h⟩
    obtain ⟨code, indices, content, kind, names, e, rfl, hkind, hnames, hcontent, -⟩ :=
      exists_of_decodeRule h
    refine ⟨code, indices, content, rfl, exists_decodeKind_iff.mp ⟨kind, hkind⟩, fun x hx => ?_,
      exists_decodeContent_iff.mp ⟨e, hcontent⟩⟩
    exact exists_entryAt_iff.mp (exists_mapM_iff.mp ⟨names, hnames⟩ x hx)
  · rintro ⟨code, indices, content, rfl, hkind, hindices, htables⟩
    obtain ⟨kind, hkind⟩ := exists_decodeKind_iff.mpr hkind
    have hnamed : ∀ x ∈ indices, ∃ name, entryAt "attribute index" attributes x = .ok name :=
      fun x hx =>
      exists_entryAt_iff.mpr (hindices x hx)
    obtain ⟨names, hnames⟩ := exists_mapM_iff.mpr hnamed
    obtain ⟨e, hcontent⟩ := exists_decodeContent_iff.mpr htables
    refine ⟨{ tag, kind, attributes := names.eraseDups, content := e }, ?_⟩
    show (do
      let kind ← decodeKind code
      let names ← indices.mapM (entryAt "attribute index" attributes)
      let content ← decodeContent tags content
      return ({ tag, kind, attributes := names.eraseDups, content } : ElementRule)) = _
    rw [hkind, hnames, hcontent]
    rfl

/-- Rules can be read exactly if each entry can be. -/
theorem exists_decodeRules_iff {entries : List (String × Json)} :
    (∃ rs, decodeRules tags attributes entries = .ok rs) ↔
      ∀ p ∈ entries, IsEntry tags attributes p.2 := by
  induction entries with
  | nil => exact iff_of_true ⟨[], rfl⟩ nofun
  | cons p rest ih =>
      simp only [decodeRules, exists_bind_iff, exists_pure_iff, and_true, exists_and_right, ih,
        exists_mapError_iff, exists_decodeRule_iff, List.forall_mem_cons]

/-- A start can be read if it is missing, null, or the index of a declared element. -/
theorem exists_decodeStart_iff {declared : List String} {start : Option Json} :
    (∃ tag, decodeStart declared start = .ok tag) ↔ ∀ v ∈ start, v = .null ∨
      IsIndex declared.length v := by
  cases start with
  | none => exact iff_of_true ⟨none, rfl⟩ nofun
  | some v =>
      simp only [Option.mem_some, forall_eq']
      cases v with
      | null => exact iff_of_true ⟨none, rfl⟩ (.inl rfl)
      | bool | number | string | array | object =>
          simp only [decodeStart, exists_bind_iff, exists_pure_iff, and_true, exists_entryAt_iff,
            reduceCtorEq, false_or]

/-- Parts that a schema is read of are **well formed**. The converse comes next;
together they say exactly what can be read. -/
theorem Parts.Makes.wellFormed {x : Parts} {rs : List (String × ElementRule)} {s : Schema}
    (h : x.Makes rs s) : x.WellFormed where
  count := h.count
  entry v hv := by
    rw [← List.map_snd_zip h.count] at hv
    obtain ⟨p, hp, rfl⟩ := List.mem_map.mp hv
    exact exists_decodeRules_iff.mp ⟨rs, h.rules⟩ p hp
  start := by
    have hstart := exists_decodeStart_iff.mp ⟨s.start, h.start⟩
    rwa [List.length_take_of_le h.count] at hstart

/-- Of well-formed parts **a schema is read**. Each of the steps succeeds by the
condition on its part. -/
theorem Parts.WellFormed.exists_makes {x : Parts} (h : x.WellFormed) : ∃ rs s, x.Makes rs s := by
  have hstart := h.start
  rw [← List.length_take_of_le h.count] at hstart
  obtain ⟨rs, hrs⟩ := exists_decodeRules_iff.mpr fun p (hp : p ∈ x.tags.zip x.entries) =>
    h.entry p.2 (List.of_mem_zip hp).2
  obtain ⟨start, hstart⟩ := exists_decodeStart_iff.mpr hstart
  exact ⟨rs, { elements := .ofList rs, start }, h.count, hrs, hstart, rfl⟩

/-! ## The names in what is read -/

theorem name_mem_of_decodeLabel {l : Label} (h : decodeLabel tags code = .ok l) {name : String}
    (hname : l = .token (.element name)) : name ∈ tags := by
  subst hname
  unfold decodeLabel at h
  split at h
  · cases h
  · split at h
    · cases h
    · split at h
      · cases h
      · split at h
        · next found hfound =>
            cases h
            exact List.mem_of_getElem? hfound
        · cases h

/-- The edges of an automaton that is read **name none but the tags**. A label for an
element is an index into them. -/
theorem name_mem_of_decodeAutomaton {a : Automaton} (h : decodeAutomaton tags v = .ok a) {e : Edge}
    (he : e ∈ a.edges) {name : String} (hname : e.label = .token (.element name)) :
    name ∈ tags := by
  obtain ⟨rows, es, rfl, hes, rfl, -⟩ := exists_of_decodeAutomaton h
  obtain ⟨blocks, rfl, hblocks⟩ := exists_of_decodeRows hes
  obtain ⟨block, hblock, he⟩ := List.mem_flatten.mp (Automaton.mem_of_mem_edges_ofEdges he)
  obtain ⟨p, -, source, row, -, -, hedges⟩ := exists_left_of_forall₂ hblocks hblock
  obtain ⟨q, -, hlabel, -, -⟩ := exists_left_of_forall₂ (forall₂_of_decodeRow hedges) he
  exact name_mem_of_decodeLabel hlabel hname

/-- A rule that was read speaks of listed names only. -/
theorem namesIn_of_decodeRule {tag : String} {r : ElementRule}
    (h : decodeRule tags attributes tag v = .ok r) : r.NamesIn tags attributes := by
  obtain ⟨code, indices, content, kind, names, e, -, -, hnames, hcontent, rfl⟩ :=
    exists_of_decodeRule h
  constructor
  · intro name hname
    obtain ⟨x, -, hx⟩ :=
      exists_left_of_forall₂ (forall₂_of_mapM hnames) (List.mem_eraseDups.mp hname)
    obtain ⟨i, -, hi⟩ := exists_of_entryAt hx
    exact List.mem_of_getElem? hi
  · intro a ha e' he' name hname
    obtain ⟨table, -, htable⟩ := exists_left_of_forall₂ (forall₂_of_decodeContent hcontent).1 ha
    exact name_mem_of_decodeAutomaton htable he' hname

/-- The rules that are read of parts have **no names but those of the parts**. Each rule
stands under the tag of its entry. -/
theorem Parts.Makes.namesIn {x : Parts} {rs : List (String × ElementRule)} {s : Schema}
    (h : x.Makes rs s) {p : String × ElementRule} (hp : p ∈ s.elements.entries) :
    p.2.NamesIn x.tags x.attributes := by
  rw [h.elements] at hp
  obtain ⟨entry, -, -, hrule⟩ :=
    exists_left_of_forall₂ (forall₂_of_decodeRules h.rules)
      (OrderedTable.mem_of_mem_entries_ofList hp)
  exact namesIn_of_decodeRule hrule

/-! ## Whole encodings -/

/-- **Reading yields well-formed schemas only.** Reading a value fails with a cause
exactly if the value has no well-formed parts. Otherwise it has parts in which every
index and every code is in range, and the schema that is read is well formed: it
declares the tags that have entries, each rule stands under its own tag and has tables
that keep the rules, its attributes and the elements on its edges are names that the
value gives, and the start is declared. -/
theorem decode_wellFormed (v : Json) :
    (∃ cause, decode v = .error cause ∧ ¬ ∃ x : Parts, v = x.value ∧ x.WellFormed) ∨
    ∃ (s : Schema) (x : Parts), decode v = .ok s ∧ (v = x.value ∧ x.WellFormed) ∧
      (∀ p ∈ s.elements.entries, p.2.tag = p.1 ∧ (∀ a ∈ p.2.content.automata, a.problems = []) ∧
        p.2.NamesIn x.tags x.attributes) ∧
      (∀ tag, tag ∈ s.tags ↔ tag ∈ x.tags.take x.entries.length) ∧
      ∀ tag, s.start = some tag → tag ∈ s.tags := by
  -- an outcome is the one or the other, and each says all about the parts
  cases hread : decode v with
  | error cause =>
      refine .inl ⟨cause, rfl, ?_⟩
      rintro ⟨x, hvalue, hwf⟩
      obtain ⟨rs, s, hmakes⟩ := hwf.exists_makes
      cases hread.symm.trans (decode_eq_ok_iff.mpr ⟨x, rs, hvalue, hmakes⟩)
  | ok s =>
      obtain ⟨x, rs, hvalue, hmakes⟩ := decode_eq_ok_iff.mp hread
      have hproper := (proper_of_decode hread).1
      have hrules {a : Automaton} {p : String × ElementRule} (hp : p ∈ s.elements.entries)
          (ha : a ∈ p.2.content.automata) : a.problems = [] :=
        (Automaton.problems_eq_nil_iff a).mpr ((hproper.rule p hp).wellFormed a ha)
      exact .inr ⟨s, x, rfl, ⟨hvalue, hmakes.wellFormed⟩,
        fun p hp => ⟨hproper.tag p hp, fun a ha => hrules hp ha, hmakes.namesIn hp⟩,
          fun tag => hmakes.mem_tags_iff,
        hproper.start⟩

/-- An entry may have no attribute where there are no names. -/
example :
    decode (.array
      [.strings ["a"], .strings [], .array [.array [.nat 0, .array [.nat 0], .array []]]]) =
      .error (.inElement "a" (.outOfRange "attribute index" "0")) := rfl

end Compact

end TreeGrammar
