/-
The edges of a table after each operation.

The view of a content automaton is `target`: which state an edge enters, given the state
that it leaves and its label. Everything later is argued about the view alone. For each
operation on tables one lemma here says what it does to the view; `mem_edges_iff`,
`mem_leaving_iff` and `mem_states_iff` tie the lists that the operations walk over back
to it.

Lists of edges are put in one after the other. Where two edges of a list **agree**
whenever they have source and label in common, the order does not matter, and the lemmas
about whole lists need no induction at the place of use.
-/
import Mathlib.Data.List.Basic
import TreeGrammar.Automaton.Compose
import TreeGrammar.Proofs.Table

set_option autoImplicit false

namespace TreeGrammar

/-- No two edges of a list have source and label in common **and different targets**. -/
def Edge.Agree (es : List Edge) : Prop :=
  ∀ e ∈ es, ∀ e' ∈ es, e.source = e'.source → e.label = e'.label → e.target = e'.target

namespace Edge

/-- Part of a list without contradictions has none. -/
theorem Agree.tail {e : Edge} {es : List Edge} (h : Agree (e :: es)) : Agree es :=
  fun e₁ h₁ e₂ h₂ => h e₁ (List.mem_cons_of_mem e h₁) e₂ (List.mem_cons_of_mem e h₂)

/-- Edges agree if a function of source and label says where each of them goes. All
lists that the operators put in are of this kind: the edges of a table, of a row, or of
rows put elsewhere. -/
theorem agree_of_eq_some {es : List Edge} (f : State → Label → Option State)
    (h : ∀ e ∈ es, f e.source e.label = some e.target) : Agree es := by
  intro e he e' he' hs hl
  have h₁ := h e he
  rw [hs, hl, h e' he'] at h₁
  exact (Option.some.inj h₁).symm

end Edge

namespace Automaton

variable (a b : Automaton) (s r t : State) (l : Label)

/-! ## Lists that a table shows -/

/-- The edges that leave a state are those of the view. The list has the order of the
row, which the view does not show. -/
theorem mem_leaving_iff : (l, t) ∈ a.leaving s ↔ a.target s l = some t := by
  unfold leaving target
  cases h : a.rows.get? s with
  | none => simp
  | some row => exact row.mem_entries_iff l t

/-- The edges of a table are those of the view. So two tables with the same view have
the same edges, if not in the same order. -/
theorem mem_edges_iff (e : Edge) : e ∈ a.edges ↔ a.target e.source e.label = some e.target := by
  obtain ⟨s, l, t⟩ := e
  unfold edges target
  rw [List.mem_flatMap]
  constructor
  · rintro ⟨⟨s', row⟩, hrow, hmem⟩
    obtain ⟨⟨l', t'⟩, hentry, heq⟩ := List.mem_map.mp hmem
    simp only [Edge.mk.injEq] at heq
    obtain ⟨rfl, rfl, rfl⟩ := heq
    rw [(a.rows.mem_entries_iff s' row).mp hrow]
    exact (row.mem_entries_iff l' t').mp hentry
  · intro h
    obtain ⟨row, hrow, hentry⟩ := Option.bind_eq_some_iff.mp h
    exact ⟨(s, row), (a.rows.mem_entries_iff s row).mpr hrow,
      List.mem_map.mpr ⟨(l, t), (row.mem_entries_iff l t).mpr hentry, rfl⟩⟩

/-- The edges of a table never contradict each other: a place has one target. -/
theorem agree_edges : Edge.Agree a.edges :=
  Edge.agree_of_eq_some a.target fun e he => (a.mem_edges_iff e).mp he

/-- No two edges in the list of a table have source and label in common. A list of edges
put into a blank table therefore loses none of them. -/
theorem pairwise_edges : a.edges.Pairwise fun e e' => e.source = e'.source →
    e.label ≠ e'.label := by
  unfold edges
  rw [List.pairwise_flatMap]
  constructor
  · intro p _
    refine List.pairwise_map.mpr ((List.pairwise_map.mp p.2.keys_nodup).imp ?_)
    exact fun hne _ => hne
  · refine (List.pairwise_map.mp a.rows.keys_nodup).imp ?_
    intro p p' hne e he e' he' hsource
    obtain ⟨q, -, rfl⟩ := List.mem_map.mp he
    obtain ⟨q', -, rfl⟩ := List.mem_map.mp he'
    exact absurd hsource hne

/-- The states of a table: the two shared ones and whatever an edge leaves or enters.
There are no others; a state that edges do not speak of can be drawn anew. -/
theorem mem_states_iff : s ∈ a.states ↔
    s = .start ∨ s = .fin ∨ (∃ l t, a.target s l = some t) ∨ ∃ r l, a.target r l = some s := by
  unfold states
  rw [List.mem_eraseDups, List.mem_append, List.mem_flatMap]
  constructor
  · rintro (h | ⟨e, he, hs⟩)
    · simp only [List.mem_cons, List.not_mem_nil, or_false] at h
      rcases h with h | h
      · exact .inl h
      · exact .inr (.inl h)
    · have htarget := (a.mem_edges_iff e).mp he
      simp only [List.mem_cons, List.not_mem_nil, or_false] at hs
      rcases hs with rfl | rfl
      · exact .inr (.inr (.inl ⟨_, _, htarget⟩))
      · exact .inr (.inr (.inr ⟨_, _, htarget⟩))
  · rintro (rfl | rfl | ⟨l, t, h⟩ | ⟨r, l, h⟩)
    · exact .inl (by simp)
    · exact .inl (by simp)
    · exact .inr ⟨⟨s, l, t⟩, (a.mem_edges_iff _).mpr h, by simp⟩
    · exact .inr ⟨⟨r, l, s⟩, (a.mem_edges_iff _).mpr h, by simp⟩

@[simp] theorem start_mem_states : State.start ∈ a.states := by
  rw [mem_states_iff]
  exact .inl rfl

@[simp] theorem fin_mem_states : State.fin ∈ a.states := by
  rw [mem_states_iff]
  exact .inr (.inl rfl)

variable {a b s r t l}

theorem source_mem_states (h : a.target s l = some t) : s ∈ a.states :=
  (a.mem_states_iff s).mpr (.inr (.inr (.inl ⟨l, t, h⟩)))

/-- Whatever an edge enters is listed, so the states of a table are all that its edges
**speak of**. -/
theorem target_mem_states (h : a.target s l = some t) : t ∈ a.states :=
  (a.mem_states_iff t).mpr (.inr (.inr (.inr ⟨s, l, h⟩)))

/-- The inner states are the numbered ones. -/
theorem mem_inner_iff : s ∈ a.inner ↔ s ∈ a.states ∧ s.isShared = false := by
  unfold inner
  rw [List.mem_filter]
  simp

/-- Edges of a table agree after a renaming that **merges no two states**. -/
theorem agree_of_image {f : State → State} {es : List Edge}
    (hf : ∀ s ∈ a.states, ∀ t ∈ a.states, f s = f t → s = t)
    (h : ∀ e ∈ es, ∃ s t, f s = e.source ∧ f t = e.target ∧ a.target s e.label = some t) :
    Edge.Agree es := by
  intro e he e' he' hsource hlabel
  obtain ⟨s, t, hs, ht, hst⟩ := h e he
  obtain ⟨s', t', hs', ht', hst'⟩ := h e' he'
  have heq : s = s' := by
    apply hf s (source_mem_states hst) s' (source_mem_states hst')
    rw [hs, hs', hsource]
  rw [heq, hlabel, hst'] at hst
  rw [← ht, ← ht', Option.some.inj hst]

/-! ## One edge -/

@[simp] theorem target_blank (s : State) (l : Label) : blank.target s l = none := rfl

/-- An edge taken out is gone, and no other is touched. A row that becomes empty is
dropped, which the view does not show. -/
theorem target_remove (a : Automaton) (s s' : State) (l l' : Label) :
    (a.remove s l).target s' l' = if s = s' ∧ l = l' then none else a.target s' l' := by
  unfold remove
  cases hrow : a.rows.get? s with
  | none =>
      by_cases hs : s = s'
      · subst hs
        simp [target, hrow]
      · simp [hs]
  | some row =>
      -- a row that is left empty is dropped, and then it must not have held anything else
      by_cases hempty : (row.erase l).isEmpty = true
      · simp only [hempty, if_true, target, OrderedTable.get?_erase]
        by_cases hs : s = s'
        · subst hs
          have hread := OrderedTable.get?_of_isEmpty hempty l'
          rw [OrderedTable.get?_erase] at hread
          by_cases hl : l = l'
          · simp [hl]
          · rw [if_neg hl] at hread
            simp [hl, hrow, hread]
        · simp [hs]
      · simp only [hempty, if_false, Bool.false_eq_true, target, OrderedTable.get?_insert]
        by_cases hs : s = s'
        · subst hs
          simp [hrow, OrderedTable.get?_erase]
        · simp [hs]

/-- Redirecting changes targets and nothing else. Sources and labels stay, so no two
edges can come into each other's way. -/
theorem target_redirect (a : Automaton) (old new s : State) (l : Label) :
    (a.redirect old new).target s l
      = (a.target s l).map fun t => if t = old then new else t := by
  unfold redirect target
  rw [OrderedTable.get?_mapValues]
  cases a.rows.get? s with
  | none => rfl
  | some row =>
      simp only [Option.map_some, Option.bind_some]
      exact OrderedTable.get?_mapValues _ row l

/-! ## Lists of edges -/

@[simp] theorem insertAll_nil (a : Automaton) : a.insertAll [] = a := rfl

theorem insertAll_cons (a : Automaton) (e : Edge) (es : List Edge) :
    a.insertAll (e :: es) = (a.insert e.source e.label e.target).insertAll es := rfl

/-- Edges that agree **replace** what was there under their sources and labels. Without
agreement the last edge of each place would count, and the order would matter. -/
theorem target_insertAll {es : List Edge} (h : Edge.Agree es) (a : Automaton) (s t : State)
    (l : Label) : (a.insertAll es).target s l = some t ↔
      (⟨s, l, t⟩ : Edge) ∈ es ∨ (∀ t', (⟨s, l, t'⟩ : Edge) ∉ es) ∧ a.target s l = some t := by
  induction es generalizing a with
  | nil => simp
  | cons e es ih =>
      rw [insertAll_cons, ih h.tail, target_insert]
      by_cases hkey : e.source = s ∧ e.label = l
      · -- a later edge of the same key has the same target, so it does not matter which is read
        obtain ⟨rfl, rfl⟩ := hkey
        have heq : ∀ t', (⟨e.source, e.label, t'⟩ : Edge) ∈ es → t' = e.target := fun t' ht' =>
          h _ (List.mem_cons_of_mem e ht') e List.mem_cons_self rfl rfl
        rw [if_pos ⟨rfl, rfl⟩]
        constructor
        · rintro (hmem | ⟨-, hsome⟩)
          · exact .inl (List.mem_cons_of_mem e hmem)
          · rw [← Option.some.inj hsome]
            exact .inl List.mem_cons_self
        · rintro (hmem | ⟨hnone, -⟩)
          · rcases List.mem_cons.mp hmem with hhead | hmem
            · have ht : t = e.target := congrArg Edge.target hhead
              by_cases hin : ∃ t', (⟨e.source, e.label, t'⟩ : Edge) ∈ es
              · obtain ⟨t', ht'⟩ := hin
                rw [heq t' ht', ← ht] at ht'
                exact .inl ht'
              · exact .inr ⟨fun t' ht' => hin ⟨t', ht'⟩, by rw [ht]⟩
            · exact .inl hmem
          · exact absurd List.mem_cons_self (hnone e.target)
      · rw [if_neg hkey]
        have hcons : ∀ t', (⟨s, l, t'⟩ : Edge) ∈ e :: es ↔ (⟨s, l, t'⟩ : Edge) ∈ es := by
          intro t'
          rw [List.mem_cons]
          constructor
          · rintro (heq | hmem)
            · exact absurd ⟨by rw [← heq], by rw [← heq]⟩ hkey
            · exact hmem
          · exact .inr
        simp only [hcons]

/-- Whether they agree or not, edges that are put in add no others. It is all that is
needed where only a bound on what is there is asked for. -/
theorem mem_of_target_insertAll {es : List Edge} {s t : State} {l : Label}
    (h : (a.insertAll es).target s l = some t) :
    (⟨s, l, t⟩ : Edge) ∈ es ∨ a.target s l = some t := by
  induction es generalizing a with
  | nil => exact .inr h
  | cons e es ih =>
      rw [insertAll_cons] at h
      rcases ih h with hmem | h
      · exact .inl (List.mem_cons_of_mem e hmem)
      · rw [target_insert] at h
        by_cases hkey : e.source = s ∧ e.label = l
        · obtain ⟨rfl, rfl⟩ := hkey
          rw [if_pos ⟨rfl, rfl⟩, Option.some.injEq] at h
          rw [← h]
          exact .inl List.mem_cons_self
        · rw [if_neg hkey] at h
          exact .inr h

/-- The edges of a table that is built from edges that agree. -/
theorem target_ofEdges {es : List Edge} (h : Edge.Agree es) (s t : State) (l : Label) :
    (ofEdges es).target s l = some t ↔ (⟨s, l, t⟩ : Edge) ∈ es := by
  have hall := target_insertAll h blank s t l
  simp only [target_blank, reduceCtorEq, and_false, or_false] at hall
  exact hall

/-! ## Lists of edges with precedence -/

/-- One edge with precedence: what was there stays. It is the edge that comes later that
gives way. -/
theorem target_insertKeeping (acc : Automaton × List Collision) (e : Edge) (s : State)
    (l : Label) : (insertKeeping acc e).1.target s l
      = if e.source = s ∧ e.label = l then (acc.1.target s l).or (some e.target)
        else acc.1.target s l := by
  unfold insertKeeping
  cases hkept : acc.1.target e.source e.label with
  | none =>
      simp only [target_insert]
      by_cases hkey : e.source = s ∧ e.label = l
      · obtain ⟨rfl, rfl⟩ := hkey
        simp [hkept]
      · simp [hkey]
  | some kept =>
      have hsame : (if kept = e.target then acc
          else (acc.1, acc.2 ++ [⟨e.source, e.label, kept, e.target⟩])).1 = acc.1 := by
        split <;> rfl
      rw [hsame]
      by_cases hkey : e.source = s ∧ e.label = l
      · obtain ⟨rfl, rfl⟩ := hkey
        simp [hkept]
      · simp [hkey]

/-- The edges after a list has been put in with precedence: those that were there, and
those of the list whose place was free. Stated for any table to start from, for the
induction on the list. -/
private theorem target_foldl_insertKeeping {es : List Edge} (h : Edge.Agree es)
    (acc : Automaton × List Collision) (s t : State) (l : Label) :
    (es.foldl insertKeeping acc).1.target s l = some t ↔
      acc.1.target s l = some t ∨ acc.1.target s l = none ∧ (⟨s, l, t⟩ : Edge) ∈ es := by
  -- the table grows along the list, so the induction is for every table to begin with
  induction es generalizing acc with
  | nil => simp
  | cons e es ih =>
      rw [List.foldl_cons, ih h.tail, target_insertKeeping]
      by_cases hkey : e.source = s ∧ e.label = l
      · obtain ⟨rfl, rfl⟩ := hkey
        have heq : (⟨e.source, e.label, t⟩ : Edge) ∈ e :: es → t = e.target := fun ht =>
          h _ ht e List.mem_cons_self rfl rfl
        rw [if_pos ⟨rfl, rfl⟩]
        cases hacc : acc.1.target e.source e.label with
        | none =>
            simp only [Option.none_or, Option.some.injEq, reduceCtorEq, false_and, or_false,
              true_and, false_or]
            constructor
            · rintro rfl
              exact List.mem_cons_self
            · intro hmem
              exact (heq hmem).symm
        | some kept => simp
      · rw [if_neg hkey, List.mem_cons]
        have hne : (⟨s, l, t⟩ : Edge) ≠ e := by
          rintro rfl
          exact hkey ⟨rfl, rfl⟩
        simp only [hne, false_or]

/-- Edges that agree are put in **where nothing was** under their sources and labels.
The order of the list does not matter, since edges that agree do not compete with
each other. -/
theorem target_insertAllKeeping {es : List Edge} (h : Edge.Agree es) (a : Automaton)
    (s t : State) (l : Label) : (a.insertAllKeeping es).1.target s l = some t ↔
      a.target s l = some t ∨ a.target s l = none ∧ (⟨s, l, t⟩ : Edge) ∈ es :=
  target_foldl_insertKeeping h (a, []) s t l

/-- What is **lost** of an edge that is put in: the edge, where one with another target
is in its place. -/
def clash (a : Automaton) (e : Edge) : Option Collision :=
  (a.target e.source e.label).bind fun kept =>
    if kept = e.target then none else some ⟨e.source, e.label, kept, e.target⟩

/-- An edge does not clash with a table if its place is free, or has the same target. -/
theorem clash_eq_none_iff {a : Automaton} {e : Edge} : a.clash e = none ↔
    a.target e.source e.label = none ∨ a.target e.source e.label = some e.target := by
  unfold clash
  cases a.target e.source e.label <;> simp

/-- What a clash records: the place, the target that was dropped, and the other one that
was kept. -/
theorem clash_eq_some_iff {a : Automaton} {e : Edge} {c : Collision} : a.clash e = some c ↔
    c.state = e.source ∧ c.label = e.label ∧ c.dropped = e.target ∧
      a.target e.source e.label = some c.kept ∧ c.kept ≠ c.dropped := by
  obtain ⟨state, label, kept, dropped⟩ := c
  unfold clash
  rw [Option.bind_eq_some_iff]
  constructor
  · rintro ⟨kept', hkept, h⟩
    split at h
    · exact absurd h (by simp)
    · next hne =>
      rw [Option.some.injEq, Collision.mk.injEq] at h
      obtain ⟨rfl, rfl, rfl, rfl⟩ := h
      exact ⟨rfl, rfl, rfl, hkept, hne⟩
  · rintro ⟨rfl, rfl, rfl, hkept, hne⟩
    exact ⟨kept, hkept, if_neg hne⟩

/-- Putting in one edge records its clash with the table as it is then. -/
theorem snd_insertKeeping (acc : Automaton × List Collision) (e : Edge) :
    (insertKeeping acc e).2 = acc.2 ++ (acc.1.clash e).toList := by
  unfold insertKeeping clash
  cases acc.1.target e.source e.label with
  | none => simp
  | some kept =>
      by_cases h : kept = e.target
      · simp [h]
      · simp [h]

/-- An edge that agrees with `e` loses as much after `e` has been put in **as before**.
So the clashes of a list may be looked up in the table as it was at first. -/
theorem clash_insertKeeping {acc : Automaton × List Collision} {e e' : Edge}
    (h : e.source = e'.source → e.label = e'.label → e.target = e'.target) :
    (insertKeeping acc e).1.clash e' = acc.1.clash e' := by
  unfold clash
  rw [target_insertKeeping]
  by_cases hkey : e.source = e'.source ∧ e.label = e'.label
  · rw [if_pos hkey, h hkey.1 hkey.2]
    cases acc.1.target e'.source e'.label with
    | none => simp
    | some kept => rfl
  · rw [if_neg hkey]

/-- The clashes of a list are those with the table **as it was at first**, since edges
that agree do not clash with each other. -/
private theorem snd_foldl_insertKeeping {es : List Edge} (h : Edge.Agree es)
    (acc : Automaton × List Collision) :
    (es.foldl insertKeeping acc).2 = acc.2 ++ es.filterMap acc.1.clash := by
  induction es generalizing acc with
  | nil => simp
  | cons e es ih =>
      have hrest : es.filterMap (insertKeeping acc e).1.clash = es.filterMap acc.1.clash :=
        List.filterMap_congr fun e' he' =>
          clash_insertKeeping (h e List.mem_cons_self e' (List.mem_cons_of_mem e he'))
      rw [List.foldl_cons, ih h.tail, snd_insertKeeping, hrest, List.filterMap_cons,
        List.append_assoc]
      cases acc.1.clash e <;> rfl

/-- **What is lost**, edge by edge and in order. Each lost edge is recorded once, with
what was kept in its place. -/
theorem collisions_insertAllKeeping {es : List Edge} (h : Edge.Agree es) (a : Automaton) :
    (a.insertAllKeeping es).2 = es.filterMap a.clash := snd_foldl_insertKeeping h (a, [])

/-- Nothing is lost exactly when each edge **finds nothing or itself** in its place. An
edge that finds itself is not lost, and no warning is due. -/
theorem insertAllKeeping_collisions {es : List Edge} (h : Edge.Agree es) (a : Automaton) :
    (a.insertAllKeeping es).2 = [] ↔ ∀ e ∈ es,
      a.target e.source e.label = none ∨ a.target e.source e.label = some e.target := by
  rw [collisions_insertAllKeeping h, List.filterMap_eq_nil_iff]
  simp only [clash_eq_none_iff]

/-! ## Copies of a row -/

theorem mem_edgesAt_iff (s : State) (row : List (Label × State)) (e : Edge) :
    e ∈ edgesAt s row ↔ e.source = s ∧ (e.label, e.target) ∈ row := by
  obtain ⟨s', l, t⟩ := e
  unfold edgesAt
  rw [List.mem_map]
  constructor
  · rintro ⟨⟨l', t'⟩, hmem, heq⟩
    simp only [Edge.mk.injEq] at heq
    obtain ⟨rfl, rfl, rfl⟩ := heq
    exact ⟨rfl, hmem⟩
  · rintro ⟨rfl, hmem⟩
    exact ⟨(l, t), hmem, rfl⟩

/-- Copies of the edges that leave one state. They keep their labels and their targets,
and get a new source. -/
theorem mem_edgesAt_leaving_iff (a : Automaton) (s r : State) (e : Edge) :
    e ∈ edgesAt s (a.leaving r) ↔ e.source = s ∧ a.target r e.label = some e.target := by
  rw [mem_edgesAt_iff, mem_leaving_iff]

end Automaton

end TreeGrammar
