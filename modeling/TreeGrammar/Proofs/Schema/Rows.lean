/-
Tables written down and read back.

A table is written down row by row. What is read back is not the table: the states have
new numbers, the rows and their edges stand in the order of their codes, and an edge for
an element without an index is gone. But it is the same table on the states that can be
reached, since the tags hold every element that occurs in a content, and so it is alike.

A table that keeps the rules is needed for it to be read back at all, and one without
empty rows for its rows to have different names.
-/
import Mathlib.Data.List.Nodup
import TreeGrammar.Proofs.Automaton.Tidy
import TreeGrammar.Proofs.Content.Alike
import TreeGrammar.Proofs.Schema.Codes

set_option autoImplicit false

namespace TreeGrammar.Compact

variable {tags : List String} {numbered : List State}

/-! ## Reading rows -/

/-- A row is read if each of its codes is, and its edges are those of its members. -/
theorem exists_decodeRow {members : List (String × Json)}
    (h : ∀ p ∈ members, ∃ l t, decodeLabel tags p.1 = .ok l ∧ decodeTarget p.2 = .ok t)
    (source : State) :
    ∃ es, decodeRow tags source members = .ok es ∧ ∀ e, e ∈ es ↔ e.source = source ∧
      ∃ p ∈ members, decodeLabel tags p.1 = .ok e.label ∧ decodeTarget p.2 = .ok e.target := by
  induction members with
  | nil => exact ⟨[], rfl, fun e => by simp⟩
  | cons p rest ih =>
      obtain ⟨l, t, hl, ht⟩ := h p List.mem_cons_self
      obtain ⟨es, hes, hmem⟩ := ih fun q hq => h q (List.mem_cons_of_mem p hq)
      refine ⟨⟨source, l, t⟩ :: es, ?_, fun e => ?_⟩
      · rw [decodeRow, hl, ht, hes]
        rfl
      · rw [List.mem_cons, hmem e]
        constructor
        · rintro (rfl | ⟨hs, q, hq, hcodes⟩)
          · exact ⟨rfl, p, List.mem_cons_self, hl, ht⟩
          · exact ⟨hs, q, List.mem_cons_of_mem p hq, hcodes⟩
        · rintro ⟨hs, q, hq, hlabel, htarget⟩
          rcases List.mem_cons.mp hq with rfl | hrest
          · left
            rw [hl, Except.ok.injEq] at hlabel
            rw [ht, Except.ok.injEq] at htarget
            rw [hlabel, htarget, ← hs]
          · exact .inr ⟨hs, q, hrest, hlabel, htarget⟩

/-- A table is read if each of its rows is, and its edges are those of its rows. -/
theorem exists_decodeRows {members : List (String × Json)}
    (h : ∀ p ∈ members, ∃ s row es, decodeState p.1 = .ok s ∧ p.2 = .object row ∧
      decodeRow tags s row = .ok es) :
    ∃ es, decodeRows tags members = .ok es ∧ ∀ e, e ∈ es ↔
      ∃ p ∈ members, ∃ s row es', decodeState p.1 = .ok s ∧ p.2 = .object row ∧
        decodeRow tags s row = .ok es' ∧ e ∈ es' := by
  -- a row that is read first has its edges first
  induction members with
  | nil => exact ⟨[], rfl, fun e => by simp⟩
  | cons p rest ih =>
      obtain ⟨s, row, es, hs, hrow, hes⟩ := h p List.mem_cons_self
      obtain ⟨more, hmore, hmem⟩ := ih fun q hq => h q (List.mem_cons_of_mem p hq)
      obtain ⟨name, v⟩ := p
      dsimp only at hs hrow
      subst hrow
      refine ⟨es ++ more, ?_, fun e => ?_⟩
      · rw [decodeRows, hs]
        show (do
          let edges ← decodeRow tags s row
          let more ← decodeRows tags rest
          return edges ++ more) = _
        rw [hes, hmore]
        rfl
      · rw [List.mem_append, hmem e]
        constructor
        · rintro (he | ⟨q, hq, hread⟩)
          · exact ⟨_, List.mem_cons_self, s, row, es, hs, rfl, hes, he⟩
          · exact ⟨q, List.mem_cons_of_mem _ hq, hread⟩
        · rintro ⟨q, hq, s', row', es', hs', hrow', hes', he⟩
          rcases List.mem_cons.mp hq with rfl | hrest
          · left
            rw [hs, Except.ok.injEq] at hs'
            rw [Json.object.injEq] at hrow'
            rw [← hs', ← hrow', hes, Except.ok.injEq] at hes'
            rwa [hes']
          · exact .inr ⟨q, hrest, s', row', es', hs', hrow', hes', he⟩

/-! ## Writing rows -/

/-- The members that a row is written as, in no order yet. -/
def rowMembers (tags : List String) (numbered : List State) (r : Row) : List (String × Json) :=
  r.entries.filterMap fun p => (labelCode? tags p.1).map fun code => (code, stateCode numbered p.2)

/-- The members that a table is written as, in no order yet. -/
def tableMembers (tags : List String) (a : Automaton) : List (String × Json) :=
  a.rows.entries.map fun p =>
    (stateName a.inner p.1, .object (Json.sortMembers (rowMembers tags a.inner p.2)))

/-- A table is written as an object with **one member for each row**, sorted by name. The
sorting is set aside by reading members without their order. -/
theorem encodeAutomaton_eq (tags : List String) (a : Automaton) :
    encodeAutomaton tags a = .object (Json.sortMembers (tableMembers tags a)) := rfl

theorem mem_rowMembers_iff {r : Row} {p : String × Json} : p ∈ rowMembers tags numbered r ↔
    ∃ l t, r.get? l = some t ∧ labelCode? tags l = some p.1 ∧ stateCode numbered t = p.2 := by
  obtain ⟨code, v⟩ := p
  unfold rowMembers
  rw [List.mem_filterMap]
  constructor
  · rintro ⟨⟨l, t⟩, hmem, hmap⟩
    obtain ⟨code', hcode, heq⟩ := Option.map_eq_some_iff.mp hmap
    rw [Prod.mk.injEq] at heq
    obtain ⟨rfl, rfl⟩ := heq
    exact ⟨l, t, (r.mem_entries_iff l t).mp hmem, hcode, rfl⟩
  · rintro ⟨l, t, hget, hcode, hstate⟩
    refine ⟨(l, t), (r.mem_entries_iff l t).mpr hget, ?_⟩
    dsimp only at hcode hstate ⊢
    rw [hcode, hstate, Option.map_some]

/-- Two labels of a row have two codes. So members of a row are not overwritten when it
is sorted. -/
theorem nodup_rowMembers (htags : tags.length ≤ maxIndex + 1) (r : Row) :
    ((rowMembers tags numbered r).map Prod.fst).Nodup := by
  have hnames : (rowMembers tags numbered r).map Prod.fst
      = (r.entries.map Prod.fst).filterMap (labelCode? tags) := by
    unfold rowMembers
    rw [List.map_filterMap, List.filterMap_map]
    congr 1
    funext p
    rw [Option.map_map, Function.comp_apply]
    exact Option.map_id' ..
  rw [hnames]
  refine r.keys_nodup.filterMap fun l l' code hl hl' => ?_
  have hread := decodeLabel_of_labelCode? htags hl
  rw [decodeLabel_of_labelCode? htags hl', Except.ok.injEq] at hread
  exact hread.symm

/-- A row that has been written is read back: **edge for edge**, but for those without a
code. Members are sorted by their codes, so this says which edges there are and not in
which order. -/
theorem decodeRow_rowMembers (htags : tags.length ≤ maxIndex + 1)
    (hnumbered : numbered.length ≤ maxState + 1) (r : Row) (source : State) :
    ∃ es, decodeRow tags source (Json.sortMembers (rowMembers tags numbered r)) = .ok es ∧
      ∀ e, e ∈ es ↔ e.source = source ∧ ∃ t, r.get? e.label = some t ∧
        (labelCode? tags e.label).isSome = true ∧ renumbered numbered t = e.target := by
  have hmembers : ∀ p, p ∈ Json.sortMembers (rowMembers tags numbered r) ↔
      ∃ l t, r.get? l = some t ∧ labelCode? tags l = some p.1 ∧ stateCode numbered t = p.2 := by
    intro p
    rw [mem_sortMembers_iff (nodup_rowMembers htags r), mem_rowMembers_iff]
  -- every member was written, so every member can be read
  have hread : ∀ p ∈ Json.sortMembers (rowMembers tags numbered r),
      ∃ l t, decodeLabel tags p.1 = .ok l ∧ decodeTarget p.2 = .ok t := by
    intro p hp
    obtain ⟨l, t, -, hcode, hstate⟩ := (hmembers p).mp hp
    refine ⟨l, renumbered numbered t, decodeLabel_of_labelCode? htags hcode, ?_⟩
    rw [← hstate]
    exact decodeTarget_stateCode hnumbered t
  obtain ⟨es, hes, hmem⟩ := exists_decodeRow hread source
  refine ⟨es, hes, fun e => ?_⟩
  rw [hmem e]
  refine and_congr_right fun _ => ?_
  constructor
  · rintro ⟨p, hp, hlabel, htarget⟩
    obtain ⟨l, t, hget, hcode, hstate⟩ := (hmembers p).mp hp
    rw [decodeLabel_of_labelCode? htags hcode, Except.ok.injEq] at hlabel
    rw [← hstate, decodeTarget_stateCode hnumbered, Except.ok.injEq] at htarget
    rw [← hlabel]
    exact ⟨t, hget, Option.isSome_iff_exists.mpr ⟨_, hcode⟩, htarget⟩
  · rintro ⟨t, hget, hsome, htarget⟩
    obtain ⟨code, hcode⟩ := Option.isSome_iff_exists.mp hsome
    refine ⟨(code, stateCode numbered t), (hmembers _).mpr ⟨e.label, t, hget, hcode, rfl⟩,
      decodeLabel_of_labelCode? htags hcode, ?_⟩
    rw [decodeTarget_stateCode hnumbered, htarget]

variable {a : Automaton}

theorem mem_inner_of_mem_states {s : State} (h : s ∈ a.states) (hs : s.isShared = false) :
    s ∈ a.inner :=
  Automaton.mem_inner_iff.mpr ⟨h, hs⟩

theorem renumbered_inner_injective {s t : State} (hs : s ∈ a.states) (ht : t ∈ a.states)
    (h : renumbered a.inner s = renumbered a.inner t) : s = t :=
  renumbered_injective (mem_inner_of_mem_states hs) (mem_inner_of_mem_states ht) h

/-- Two rows have two names, if none of them is empty. -/
theorem nodup_tableMembers (htidy : a.Tidy) (hinner : a.inner.length ≤ maxState + 1) :
    ((tableMembers tags a).map Prod.fst).Nodup := by
  have hnames : (tableMembers tags a).map Prod.fst = a.rows.keys.map (stateName a.inner) := by
    unfold tableMembers OrderedTable.keys
    rw [List.map_map, List.map_map]
    rfl
  rw [hnames]
  -- reading takes the names back to the new numbers, which are told apart
  refine List.Nodup.map_on ?_ a.rows.keys_nodup
  intro s hs t ht heq
  have hread := decodeState_stateName hinner s
  rw [heq, decodeState_stateName hinner t, Except.ok.injEq] at hread
  exact (renumbered_inner_injective (htidy.mem_states ht) (htidy.mem_states hs) hread).symm

/-- A table is listed **row by row**, each row under the name of its state. Rows are
sorted by name, which brings them into another order. -/
theorem mem_tableMembers_iff (tags : List String) (htidy : a.Tidy)
    (hinner : a.inner.length ≤ maxState + 1) (p : String × Json) :
    p ∈ Json.sortMembers (tableMembers tags a) ↔ ∃ s row, a.rows.get? s = some row ∧
      stateName a.inner s = p.1 ∧
      .object (Json.sortMembers (rowMembers tags a.inner row)) = p.2 := by
  obtain ⟨name, v⟩ := p
  rw [mem_sortMembers_iff (nodup_tableMembers htidy hinner), tableMembers, List.mem_map]
  constructor
  · rintro ⟨⟨s, row⟩, hmem, heq⟩
    rw [Prod.mk.injEq] at heq
    exact ⟨s, row, (a.rows.mem_entries_iff s row).mp hmem, heq.1, heq.2⟩
  · rintro ⟨s, row, hget, hname, hv⟩
    refine ⟨(s, row), (a.rows.mem_entries_iff s row).mpr hget, ?_⟩
    rw [Prod.mk.injEq]
    exact ⟨hname, hv⟩

/-- The edges are those of the table with its **inner states renumbered**, but for the
edges without a code. -/
def Renumbers (tags : List String) (a : Automaton) (es : List Edge) : Prop :=
  ∀ e, e ∈ es ↔ ∃ s t, renumbered a.inner s = e.source ∧ renumbered a.inner t = e.target ∧
    a.target s e.label = some t ∧ (labelCode? tags e.label).isSome = true

/-- A table that has been written is read back **renumbered**. Each row is read back,
and its source is the state of its name. -/
theorem decodeRows_tableMembers (htidy : a.Tidy) (hinner : a.inner.length ≤ maxState + 1)
    (htags : tags.length ≤ maxIndex + 1) :
    ∃ es, decodeRows tags (Json.sortMembers (tableMembers tags a)) = .ok es ∧
      Renumbers tags a es := by
  have hmembers := mem_tableMembers_iff tags htidy hinner
  -- each member is a row under the name of its state, and both are read back
  have hread : ∀ p ∈ Json.sortMembers (tableMembers tags a), ∃ s row es,
      decodeState p.1 = .ok s ∧ p.2 = .object row ∧ decodeRow tags s row = .ok es := by
    intro p hp
    obtain ⟨s, row, -, hname, hv⟩ := (hmembers p).mp hp
    obtain ⟨es, hes, -⟩ := decodeRow_rowMembers htags hinner row (renumbered a.inner s)
    refine ⟨renumbered a.inner s, _, es, ?_, hv.symm, hes⟩
    rw [← hname]
    exact decodeState_stateName hinner s
  obtain ⟨es, hes, hmem⟩ := exists_decodeRows hread
  refine ⟨es, hes, fun e => ?_⟩
  rw [hmem e]
  constructor
  · rintro ⟨p, hp, s', row', es', hs', hrow', hes', he⟩
    obtain ⟨s, row, hget, hname, hv⟩ := (hmembers p).mp hp
    rw [← hname, decodeState_stateName hinner, Except.ok.injEq] at hs'
    rw [← hv, Json.object.injEq] at hrow'
    obtain ⟨es₀, hes₀, hmem₀⟩ := decodeRow_rowMembers htags hinner row (renumbered a.inner s)
    rw [← hs', ← hrow', hes₀, Except.ok.injEq] at hes'
    rw [← hes', hmem₀ e] at he
    obtain ⟨hsource, t, ht, hcode, htarget⟩ := he
    have hst : a.target s e.label = some t := by
      rw [Automaton.target, hget, Option.bind_some, ht]
    exact ⟨s, t, hsource.symm, htarget, hst, hcode⟩
  · rintro ⟨s, t, hsource, htarget, hst, hcode⟩
    obtain ⟨row, hrow, ht⟩ := Option.bind_eq_some_iff.mp hst
    obtain ⟨es', hes', hmem'⟩ := decodeRow_rowMembers htags hinner row (renumbered a.inner s)
    have hp :=
      (hmembers (stateName a.inner s, .object (Json.sortMembers (rowMembers tags a.inner row)))).mpr
      ⟨s, row, hrow, rfl, rfl⟩
    exact ⟨_, hp, _, _, es', decodeState_stateName hinner s, rfl, hes',
      (hmem' e).mpr ⟨hsource.symm, t, ht, hcode, htarget⟩⟩

/-! ## Tables -/

namespace Renumbers

variable {es : List Edge}

/-- Renumbering merges no two states, so the edges do not disagree. Edges that are read
may be put in one by one in any order for this reason. -/
theorem agree (h : Renumbers tags a es) : Edge.Agree es := by
  apply Automaton.agree_of_image fun s hs t ht => renumbered_inner_injective hs ht
  intro e he
  obtain ⟨s, t, hs, ht, hst, -⟩ := (h e).mp he
  exact ⟨s, t, hs, ht, hst⟩

/-- The table that is read back has **the renumbered edges** of the one that was written,
and no others. Labels without a code are the exception; they are not written. -/
theorem target_ofEdges (h : Renumbers tags a es) {s' : State} {l : Label} {t' : State} :
    (Automaton.ofEdges es).target s' l = some t' ↔
      ∃ s t, renumbered a.inner s = s' ∧ renumbered a.inner t = t' ∧ a.target s l = some t ∧
        (labelCode? tags l).isSome = true := by
  rw [Automaton.target_ofEdges h.agree]
  exact h ⟨s', l, t'⟩

/-- Reading back **keeps the rules** of a table. Renumbering sends no two states to one, so
circles and chains stay what they were. -/
theorem wellFormed (h : Renumbers tags a es) (hwf : a.WellFormed) :
    (Automaton.ofEdges es).WellFormed := by
  apply hwf.of_image (fun s hs t ht => renumbered_inner_injective hs ht) rfl rfl
  intro s' l t' hst
  obtain ⟨s, t, hs, ht, hst, -⟩ := h.target_ofEdges.mp hst
  exact ⟨s, t, hs, ht, hst⟩

/-- On the states that runs reach **nothing is lost**: an element on an edge that is
reached has a code if the elements of the table are among the tags. -/
theorem renames (h : Renumbers tags a es) (hwf : a.WellFormed)
    (hnamed : ∀ name, Token.element name ∈ a.reachableTokens → name ∈ tags) :
    Automaton.Renames (renumbered a.inner) (fun s => a.Reaches s ∨ s = .fin) a
      (Automaton.ofEdges es) := by
  have hstates : ∀ s, a.Reaches s ∨ s = .fin → s ∈ a.states := by
    rintro s (hs | rfl)
    · exact hs.mem_states
    · exact a.fin_mem_states
  -- no edge leaves the end, so a state with an edge is one that is reached
  have hreached : ∀ s l t, a.Reaches s ∨ s = .fin → a.target s l = some t → a.Reaches s := by
    rintro s l t (hs | rfl) hst
    · exact hs
    · exact absurd rfl (hwf.ne_fin hst)
  refine ⟨.inl a.reaches_start, rfl, rfl, ?_, ?_, .inr rfl, ?_⟩
  · intro s l t hs hst
    exact .inl ((hreached s l t hs hst).tail hst)
  · intro s t hs ht
    exact renumbered_inner_injective (hstates s hs) (hstates t ht)
  · intro s l hs
    cases hst : a.target s l with
    | some t =>
        have hcode : (labelCode? tags l).isSome = true := by
          rw [Option.isSome_iff_ne_none]
          intro hnone
          obtain ⟨name, rfl, hname⟩ := labelCode?_eq_none_iff.mp hnone
          apply hname
          apply hnamed
          exact Automaton.mem_reachableTokens_iff.mpr ⟨s, t, hreached s _ t hs hst, hst⟩
        exact h.target_ofEdges.mpr ⟨s, t, rfl, rfl, hst, hcode⟩
    | none =>
        rw [Option.map_none, Option.eq_none_iff_forall_ne_some]
        intro t' ht'
        obtain ⟨s₀, t, hs₀, -, hst₀, -⟩ := h.target_ofEdges.mp ht'
        have heq := renumbered_inner_injective (Automaton.source_mem_states hst₀) (hstates s hs) hs₀
        rw [heq, hst] at hst₀
        exact absurd hst₀ (by simp)

end Renumbers

/-- A table that keeps the rules and whose elements are among the tags is **read back as
one that is alike**. -/
theorem exists_decodeAutomaton (hwf : a.WellFormed) (htidy : a.Tidy)
    (hinner : a.inner.length ≤ maxState + 1) (htags : tags.length ≤ maxIndex + 1)
    (hnamed : ∀ name, Token.element name ∈ a.reachableTokens → name ∈ tags) :
    ∃ b, decodeAutomaton tags (encodeAutomaton tags a) = .ok b ∧ a.Alike b := by
  obtain ⟨es, hes, hren⟩ := decodeRows_tableMembers htidy hinner htags
  refine ⟨Automaton.ofEdges es, ?_, (hren.renames hwf hnamed).alike⟩
  -- what is read keeps the rules too, so it passes the check at the end of reading
  have hproblems := (Automaton.problems_eq_nil_iff _).mpr (hren.wellFormed hwf)
  rw [encodeAutomaton_eq, decodeAutomaton, hes]
  show (if (Automaton.ofEdges es).problems.isEmpty then Except.ok (Automaton.ofEdges es) else _) = _
  rw [hproblems]
  rfl

end TreeGrammar.Compact
