/-
What can be reached in a table.

`reachableStates` searches the table for the states that edges of any label lead to, and
`reachableTokens` gathers the labels of the edges that leave them. Here both are read
off the view: a state is reached if edges lead to it from `start`, and a token is one of
the content's own if some edge for it leaves such a state. A renaming whose domain is no
more than what it has to be keeps both, so two tables that differ in the names of their
states have the same tokens.
-/
import TreeGrammar.Proofs.Automaton.Renaming
import TreeGrammar.Proofs.Discovery

set_option autoImplicit false

namespace TreeGrammar.Automaton

/-- Edges, of whatever label, lead from `start` to the state. -/
def Reaches (a : Automaton) : State → Prop :=
  Relation.ReflTransGen (fun s r => ∃ l, a.target s l = some r) .start

variable {a b : Automaton} {s t : State} {x : Token}

theorem reaches_start (a : Automaton) : a.Reaches .start := Relation.ReflTransGen.refl

theorem Reaches.tail {l : Label} (h : a.Reaches s) (hst : a.target s l = some t) : a.Reaches t :=
  Relation.ReflTransGen.tail h ⟨l, hst⟩

/-- What is reached is listed, as an edge enters it. So the search for reached states
looks at finitely many. -/
theorem Reaches.mem_states (h : a.Reaches s) : s ∈ a.states := by
  rcases Relation.ReflTransGen.cases_tail h with heq | ⟨r, -, l, hr⟩
  · rw [heq]
    exact a.start_mem_states
  · exact target_mem_states hr

/-- The search finds **all that is reached**, and nothing else. It is bounded by the
states of the table, but an edge never leaves these. -/
theorem mem_reachableStates_iff : s ∈ a.reachableStates ↔ a.Reaches s := by
  unfold reachableStates Reaches
  rw [mem_breadthFirst_iff]
  -- an edge enters a state of the table, so the bound on the search leaves nothing out
  have hstep : ∀ r t, t ∈ (a.leaving r).map Prod.snd ∧ t ∈ a.states ↔
      ∃ l, a.target r l = some t := by
    intro r t
    constructor
    · rintro ⟨hmem, -⟩
      obtain ⟨⟨l, t'⟩, hl, rfl⟩ := List.mem_map.mp hmem
      exact ⟨l, (a.mem_leaving_iff r t' l).mp hl⟩
    · rintro ⟨l, hl⟩
      exact ⟨List.mem_map.mpr ⟨(l, t), (a.mem_leaving_iff r t l).mpr hl, rfl⟩,
        target_mem_states hl⟩
  simp only [hstep]

/-- The tokens that leave a state are those it has edges for. -/
theorem mem_tokensLeaving_iff : x ∈ a.tokensLeaving s ↔ ∃ t, a.target s (.token x) = some t := by
  unfold tokensLeaving
  rw [List.mem_filterMap]
  constructor
  · rintro ⟨⟨l, t⟩, hmem, hx⟩
    have hl : l = .token x := by
      cases l with
      | token y => rw [Option.some.inj hx]
      | epsilon => exact absurd hx (by simp [Label.token?])
    rw [hl] at hmem
    exact ⟨t, (a.mem_leaving_iff s t _).mp hmem⟩
  · rintro ⟨t, ht⟩
    exact ⟨(.token x, t), (a.mem_leaving_iff s t _).mpr ht, rfl⟩

/-- The tokens of a table are those of the edges that leave its **reached states**. The
search lists them with its own bound on rounds; here that bound is gone. -/
theorem mem_reachableTokens_iff :
    x ∈ a.reachableTokens ↔ ∃ s t, a.Reaches s ∧ a.target s (.token x) = some t := by
  unfold reachableTokens
  rw [List.mem_eraseDups, List.mem_flatMap]
  constructor
  · rintro ⟨s, hs, hx⟩
    obtain ⟨t, ht⟩ := mem_tokensLeaving_iff.mp hx
    exact ⟨s, t, mem_reachableStates_iff.mp hs, ht⟩
  · rintro ⟨s, t, hs, ht⟩
    exact ⟨s, mem_reachableStates_iff.mpr hs, mem_tokensLeaving_iff.mpr ⟨t, ht⟩⟩

/-- What is reached has its chain reached with it. One step of the chain is one edge,
and the rest is an induction on how far it is followed. -/
theorem Reaches.passes {r : State} (h : a.Reaches s) (hp : a.Passes s r) : a.Reaches r := by
  induction hp with
  | refl => exact h
  | tail _ hstep ih => exact ih.tail hstep

/-- A reached state is left only by the table's own tokens, and for reached states. -/
theorem Reaches.consume (h : a.Reaches s) (ht : a.consume s x = some t) :
    a.Reaches t ∧ x ∈ a.reachableTokens := by
  obtain ⟨r, hr, hedge⟩ := exists_of_consume ht
  exact ⟨(h.passes hr).tail hedge, mem_reachableTokens_iff.mpr ⟨r, t, h.passes hr, hedge⟩⟩

/-- The tokens that are expected at a state are those that it **takes**. The list is
read off the whole chain of the state, so nothing that is taken further on is missing
from it. -/
theorem mem_expected_iff : x ∈ a.expected s ↔ (a.consume s x).isSome = true := by
  unfold expected
  rw [List.mem_eraseDups, List.mem_flatMap, Option.isSome_iff_exists]
  constructor
  · rintro ⟨r, hr, hx⟩
    obtain ⟨t, ht⟩ := mem_tokensLeaving_iff.mp hx
    exact exists_consume ((a.mem_chain_iff s r).mp hr) ht
  · rintro ⟨t, ht⟩
    obtain ⟨r, hr, hrt⟩ := exists_of_consume ht
    exact ⟨r, (a.mem_chain_iff s r).mpr hr, mem_tokensLeaving_iff.mpr ⟨t, hrt⟩⟩

namespace Renames

variable {f : State → State} {p : State → Prop}

/-- What is reached lies in the domain of a renaming, which is closed under edges. What
a renaming says of its domain can thus be used at every state that a run comes to. -/
theorem mem_of_reaches (h : Renames f p a b) (hs : a.Reaches s) : p s := by
  induction hs with
  | refl => exact h.start_mem
  | tail _ hstep ih =>
      obtain ⟨l, hl⟩ := hstep
      exact h.closed _ _ _ ih hl

/-- The renamed state is reached in the renamed table, by the renamed edges. -/
theorem reaches (h : Renames f p a b) (hs : a.Reaches s) : b.Reaches (f s) := by
  induction hs with
  | refl =>
      rw [h.apply_start]
      exact b.reaches_start
  | tail hr hstep ih =>
      obtain ⟨l, hl⟩ := hstep
      refine ih.tail (l := l) ?_
      rw [h.target_eq _ _ (h.mem_of_reaches hr), hl, Option.map_some]

/-- A state that is reached after the renaming is a renamed one. With the converse this
makes the two searches find the same tokens. -/
theorem exists_of_reaches (h : Renames f p a b) (hs : b.Reaches s) :
    ∃ r, f r = s ∧ a.Reaches r := by
  induction hs with
  | refl => exact ⟨.start, h.apply_start, a.reaches_start⟩
  | tail _ hstep ih =>
      obtain ⟨l, hl⟩ := hstep
      obtain ⟨r, rfl, hr⟩ := ih
      rw [h.target_eq _ _ (h.mem_of_reaches hr)] at hl
      obtain ⟨t, ht, rfl⟩ := Option.map_eq_some_iff.mp hl
      exact ⟨t, rfl, hr.tail ht⟩

/-- A renaming keeps the tokens. -/
theorem mem_reachableTokens_iff (h : Renames f p a b) :
    x ∈ b.reachableTokens ↔ x ∈ a.reachableTokens := by
  rw [Automaton.mem_reachableTokens_iff, Automaton.mem_reachableTokens_iff]
  constructor
  · rintro ⟨s, t, hs, hst⟩
    obtain ⟨r, rfl, hr⟩ := h.exists_of_reaches hs
    rw [h.target_eq _ _ (h.mem_of_reaches hr)] at hst
    obtain ⟨t', ht', -⟩ := Option.map_eq_some_iff.mp hst
    exact ⟨r, t', hr, ht'⟩
  · rintro ⟨s, t, hs, hst⟩
    refine ⟨f s, f t, h.reaches hs, ?_⟩
    rw [h.target_eq _ _ (h.mem_of_reaches hs), hst, Option.map_some]

end Renames

end TreeGrammar.Automaton
