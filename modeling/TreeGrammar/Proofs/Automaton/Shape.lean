/-
The rules of a table, as one proposition.

`TreeGrammar.Automaton.Check` lists the breaches of the rules that a table must keep.
`WellFormed` says the rules themselves, about the view, so that operators can be shown
to keep them; `breaches_eq_nil_iff` says that the two agree. `Within` bounds the numbers
of a table's states, which is what makes a number drawn later new to it.
-/
import TreeGrammar.Proofs.Automaton.Chain

set_option autoImplicit false

namespace TreeGrammar.Automaton

/-- The **rules of a table**: nothing enters `start`, nothing leaves `fin`, the epsilon
edge of `start` enters `fin`, and every chain comes to an end. -/
structure WellFormed (a : Automaton) : Prop where
  target_ne_start : ∀ s l, a.target s l ≠ some .start
  target_fin : ∀ l, a.target .fin l = none
  epsilon_start : ∀ t, a.epsilon .start = some t → t = .fin
  halts : ∀ s, a.Halts s

/-- No numbered state of the table has a number **beyond** `n`. -/
def Within (n : Nat) (a : Automaton) : Prop := ∀ k, State.id k ∈ a.states → k ≤ n

variable {a : Automaton}

/-! ## The rules and their breaches -/

/-- No edge is a breach by itself exactly when the rules on single edges are kept.
There are two of them: nothing leads back to `start`, and an epsilon edge of `start`
leads to `fin`. -/
theorem edgeBreaches_eq_nil_iff (e : Edge) : edgeBreaches e = [] ↔
    e.target ≠ .start ∧ (e.source = .start → e.label = .epsilon → e.target = .fin) := by
  unfold edgeBreaches
  rw [List.append_eq_nil_iff]
  by_cases hstart : e.target = .start
  · simp [hstart]
  · by_cases hfin : e.target = .fin
    · simp [hfin]
    · simp [hstart, hfin]

/-- A state without edges halts, so only listed states need be looked at. This is what
makes the rule on circles, which speaks of every state, a finite check. -/
theorem halts_of_notMem_states {s : State} (h : s ∉ a.states) : a.Halts s := by
  refine halts_of_epsilon_eq_none ?_
  cases hs : a.epsilon s with
  | none => rfl
  | some r => exact absurd (source_mem_states hs) h

/-- The rules on single edges, over all edges of the table. -/
theorem flatMap_edgeBreaches_eq_nil_iff (a : Automaton) : a.edges.flatMap edgeBreaches = [] ↔
    ∀ s l t, a.target s l = some t → t ≠ .start ∧ (s = .start → l = .epsilon → t = .fin) := by
  rw [List.flatMap_eq_nil_iff]
  constructor
  · intro h s l t hst
    exact (edgeBreaches_eq_nil_iff _).mp (h ⟨s, l, t⟩ ((a.mem_edges_iff _).mpr hst))
  · intro h e he
    exact (edgeBreaches_eq_nil_iff e).mpr (h _ _ _ ((a.mem_edges_iff e).mp he))

/-- No edge is listed at a state exactly if it has none for any label. -/
theorem leaving_eq_nil_iff (a : Automaton) (s : State) :
    a.leaving s = [] ↔ ∀ l, a.target s l = none := by
  rw [List.eq_nil_iff_forall_not_mem]
  constructor
  · intro h l
    cases hl : a.target s l with
    | none => rfl
    | some t => exact absurd ((a.mem_leaving_iff s t l).mpr hl) (h (l, t))
  · rintro h ⟨l, t⟩ hmem
    have hl := (a.mem_leaving_iff s t l).mp hmem
    rw [h l] at hl
    exact absurd hl (by simp)

/-- No listed state circles exactly if **every state halts**; a state that is not listed
has no edge to go round by. -/
theorem filter_circles_eq_nil_iff (a : Automaton) :
    a.states.filter a.circles = [] ↔ ∀ s, a.Halts s := by
  rw [List.filter_eq_nil_iff]
  constructor
  · intro h s
    by_cases hs : s ∈ a.states
    · rw [← circles_eq_false_iff]
      exact Bool.eq_false_iff.mpr (h s hs)
    · exact halts_of_notMem_states hs
  · intro h s _
    exact Bool.eq_false_iff.mp ((a.circles_eq_false_iff s).mpr (h s))

/-- A table has **no breach** exactly when it keeps the rules. The list of breaches is a
check that can be run, the rules are what proofs use. -/
theorem breaches_eq_nil_iff (a : Automaton) : a.breaches = [] ↔ a.WellFormed := by
  have hfin : (if (a.leaving .fin).isEmpty then [] else [Breach.leavesFin]) = [] ↔
      ∀ l, a.target .fin l = none := by
    rw [← leaving_eq_nil_iff]
    cases a.leaving .fin with
    | nil => simp
    | cons p rest => simp
  unfold breaches
  rw [List.append_eq_nil_iff, List.append_eq_nil_iff, flatMap_edgeBreaches_eq_nil_iff, hfin,
    List.map_eq_nil_iff, filter_circles_eq_nil_iff]
  constructor
  · rintro ⟨⟨hleaves, hsingle⟩, hhalts⟩
    exact ⟨fun s l h => (hsingle s l _ h).1 rfl, hleaves,
      fun t h => (hsingle _ _ t h).2 rfl rfl, hhalts⟩
  · intro h
    refine ⟨⟨h.target_fin, fun s l t hst => ⟨?_, ?_⟩⟩, h.halts⟩
    · rintro rfl
      exact h.target_ne_start s l hst
    · rintro rfl rfl
      exact h.epsilon_start t hst

/-- No breach, no problem to report. What is reported is a rendering of the breaches,
one line for each. -/
theorem problems_eq_nil_iff (a : Automaton) : a.problems = [] ↔ a.WellFormed := by
  unfold problems
  rw [List.map_eq_nil_iff, breaches_eq_nil_iff]

namespace WellFormed

variable {s r t : State} {l : Label}

theorem ne_fin (h : a.WellFormed) (hst : a.target s l = some t) : s ≠ .fin := by
  rintro rfl
  rw [h.target_fin l] at hst
  exact absurd hst (by simp)

/-- What an edge enters is not `start`. Most facts about paths that have left `start`
rest on this. -/
theorem ne_start (h : a.WellFormed) (hst : a.target s l = some t) : t ≠ .start := by
  rintro rfl
  exact h.target_ne_start s l hst

/-- The state `fin` passes to itself alone. -/
theorem eq_of_passes_fin (h : a.WellFormed) (hp : a.Passes .fin t) : t = .fin :=
  eq_of_passes hp (h.target_fin .epsilon)

/-- The state `start` passes to itself and perhaps to `fin`. The chain of `start` has
one edge at most, and it tells whether the table may be empty. -/
theorem eq_of_passes_start (h : a.WellFormed) (hp : a.Passes .start t) :
    t = .start ∨ t = .fin ∧ a.epsilon .start = some .fin := by
  rcases passes_iff.mp hp with heq | ⟨r, hr, hrest⟩
  · exact .inl heq.symm
  · have hfin := h.epsilon_start r hr
    subst hfin
    exact .inr ⟨h.eq_of_passes_fin hrest, hr⟩

/-- Nothing but `start` passes to `start`. -/
theorem eq_start_of_passes (h : a.WellFormed) (hp : a.Passes s .start) : s = .start := by
  rcases Relation.ReflTransGen.cases_tail hp with heq | ⟨r, -, hr⟩
  · exact heq.symm
  · exact absurd hr (h.target_ne_start r .epsilon)

end WellFormed

/-! ## Numbers in use -/

namespace Within

variable {n m : Nat} {s t : State} {l : Label}

/-- A bound may be raised, as numbers are drawn forward. -/
theorem mono (h : a.Within n) (hnm : n ≤ m) : a.Within m :=
  fun k hk => Nat.le_trans (h k hk) hnm

/-- It is enough to look at both ends of every edge. A number that no edge mentions does
not come up as a state. -/
theorem of_edges (h : ∀ s l t, a.target s l = some t →
    (∀ k, s = .id k → k ≤ n) ∧ ∀ k, t = .id k → k ≤ n) : a.Within n := by
  intro k hk
  rcases (a.mem_states_iff _).mp hk with heq | heq | ⟨l, t, hst⟩ | ⟨s, l, hst⟩
  · exact absurd heq (by simp)
  · exact absurd heq (by simp)
  · exact (h _ _ _ hst).1 k rfl
  · exact (h _ _ _ hst).2 k rfl

/-- A table has no greater numbers than the edges that it is built from. -/
theorem ofEdges {es : List Edge}
    (h : ∀ e ∈ es, (∀ k, e.source = .id k → k ≤ n) ∧ ∀ k, e.target = .id k → k ≤ n) :
    (Automaton.ofEdges es).Within n := by
  refine of_edges fun s l t hst => ?_
  rcases mem_of_target_insertAll hst with hmem | hnone
  · exact h ⟨s, l, t⟩ hmem
  · exact absurd hnone (by simp)

/-- A number beyond the bound is **new to the table**. Every state that an operator adds
is new for this reason. -/
theorem notMem (h : a.Within n) {k : Nat} (hk : n < k) : State.id k ∉ a.states :=
  fun hmem => absurd (h k hmem) (by omega)

end Within

end TreeGrammar.Automaton
