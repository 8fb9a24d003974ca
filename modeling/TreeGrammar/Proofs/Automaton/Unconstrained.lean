/-
Tables that take every word of their tokens.

`isUnconstrained` searches the states that words of the table's own tokens lead to, and
asks of each of them that it takes every such token and that the content may end there;
only `start` need not be an end. Nothing enters `start` in a table that keeps the rules,
so a run over a word that is not empty never ends there, and every such word is
accepted.
-/
import TreeGrammar.Proofs.Automaton.Path
import TreeGrammar.Proofs.Automaton.Reach

set_option autoImplicit false

namespace TreeGrammar.Automaton

/-- A run over tokens of the table comes to the state. -/
def Visits (a : Automaton) : State → Prop :=
  Relation.ReflTransGen (fun s t => ∃ x ∈ a.reachableTokens, a.consume s x = some t) .start

variable {a : Automaton} {s t : State} {x : Token} {w : List Token}

/-- The search through what the table's own tokens lead to begins at `start`. No word
has to be read to be there. -/
theorem visits_start (a : Automaton) : a.Visits .start := Relation.ReflTransGen.refl

theorem Visits.consume (h : a.Visits s) (hx : x ∈ a.reachableTokens) (ht : a.consume s x = some t) :
    a.Visits t :=
  Relation.ReflTransGen.tail h ⟨x, hx, ht⟩

/-- What the search asks, it asks of **every state that such a run comes to**. It asks
whether the content may end there and whether every token of the table is taken, and at
`start` only the second. -/
theorem isUnconstrained_iff : a.isUnconstrained = true ↔ a.reachableTokens ≠ [] ∧
    ∀ s, a.Visits s →
      (s = .start ∨ a.isFinished s = true) ∧
      ∀ x ∈ a.reachableTokens, (a.consume s x).isSome = true := by
  -- a token leads to a state of the table, so the bound on the search leaves nothing out
  have hstep : ∀ s t, t ∈ a.reachableTokens.filterMap (a.consume s) ∧ t ∈ a.states ↔
      ∃ x ∈ a.reachableTokens, a.consume s x = some t := by
    intro s t
    rw [List.mem_filterMap]
    refine and_iff_left_of_imp ?_
    rintro ⟨x, -, ht⟩
    obtain ⟨r, -, hedge⟩ := exists_of_consume ht
    exact target_mem_states hedge
  unfold isUnconstrained Visits
  simp only [Bool.and_eq_true, Bool.or_eq_true, Bool.not_eq_true', List.isEmpty_eq_false_iff,
    List.all_eq_true, decide_eq_true_eq, mem_breadthFirst_iff, hstep]

/-- No token leads back to `start`, so only the empty word is judged there. -/
theorem WellFormed.ne_start_of_consume (h : a.WellFormed) (ht : a.consume s x = some t) :
    t ≠ .start := by
  obtain ⟨r, -, hedge⟩ := exists_of_consume ht
  exact h.ne_start hedge

/-- From every state that runs come to, whatever tokens of the table follow are read, if
any do or some have been read already. -/
theorem Visits.reads (h : a.Visits s) (hrules : a.WellFormed) (hfree : a.isUnconstrained = true)
    (hw : ∀ x ∈ w, x ∈ a.reachableTokens) (hs : s = .start → w ≠ []) : a.Reads s w := by
  obtain ⟨-, hall⟩ := isUnconstrained_iff.mp hfree
  induction w generalizing s with
  | nil =>
      have hend := (hall s h).1.resolve_left fun heq => hs heq rfl
      exact reads_nil.mpr ((a.isFinished_iff s).mp hend)
  | cons x w ih =>
      obtain ⟨hx, hw⟩ := List.forall_mem_cons.mp hw
      obtain ⟨t, ht⟩ := Option.isSome_iff_exists.mp ((hall s h).2 x hx)
      have hread := ih (h.consume hx ht) hw fun heq => absurd heq (hrules.ne_start_of_consume ht)
      exact reads_cons.mpr ⟨t, ht, hread⟩

/-- An unconstrained table accepts **every word of its tokens** but perhaps the empty
one. Every token leads to a state of which the same was asked, so the word can be read
to its end. -/
theorem accepts_of_isUnconstrained (hrules : a.WellFormed) (hfree : a.isUnconstrained = true)
    (hne : w ≠ []) (hw : ∀ x ∈ w, x ∈ a.reachableTokens) : a.accepts w = true :=
  accepts_iff.mpr (a.visits_start.reads hrules hfree hw fun _ => hne)

end TreeGrammar.Automaton
