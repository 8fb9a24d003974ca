/-
When a content is unconstrained.

A single table is said to be unconstrained by a search that looks at no word: it follows
the table's own tokens from `start`, asks of each state that it comes to whether the
content may end there and whether every token is taken there, and excepts `start` from
the first question. The search is exact (`isUnconstrained_exact`). A state that it comes
to is one that a word leads to; if every word but the empty one is accepted, then so are
that word and each of its continuations by one token, which is what the search asks. The
other way round `Visits.reads` has been shown before, and it needs the rule that no edge
enters `start`. The search ends for every table, and so does the one that gathers the
tokens, since both see each state of the table once.
-/
import TreeGrammar.Proofs.Content.Insertion
import TreeGrammar.Proofs.Search

set_option autoImplicit false

namespace TreeGrammar

namespace Automaton

variable {a : Automaton} {s : State} {w : List Token}

/-! ## Words to the states that are visited -/

/-- A state that runs over tokens of the table come to is one that **a word** of them
leads to. By induction on how the state is come to. -/
theorem Visits.exists_run (h : a.Visits s) :
    ∃ w, (∀ x ∈ w, x ∈ a.reachableTokens) ∧ a.run .start w = some s := by
  induction h with
  | refl => exact ⟨[], fun x hx => absurd hx List.not_mem_nil, rfl⟩
  | @tail s t _ hstep ih =>
      obtain ⟨w, hw, hrun⟩ := ih
      obtain ⟨x, hx, ht⟩ := hstep
      refine ⟨w ++ [x], fun y hy => ?_, ?_⟩
      · rcases List.mem_append.mp hy with hy | hy
        · exact hw y hy
        · rwa [List.mem_singleton.mp hy]
      · rw [run_append, hrun, Option.bind_some, run, ht]
        rfl

/-- If every word of its tokens but perhaps the empty one is accepted, a table **is
unconstrained**. Every state in question is at the end of a word, and one more token
makes the word that is asked about. -/
theorem isUnconstrained_of_accepts (hne : a.reachableTokens ≠ [])
    (hall : ∀ w, w ≠ [] → (∀ x ∈ w, x ∈ a.reachableTokens) → a.accepts w = true) :
    a.isUnconstrained = true := by
  refine isUnconstrained_iff.mpr ⟨hne, fun s hs => ?_⟩
  obtain ⟨w, hw, hrun⟩ := hs.exists_run
  constructor
  · by_cases hnil : w = []
    · rw [hnil] at hrun
      exact .inl (Option.some.inj hrun).symm
    · obtain ⟨t, ht, hfinished⟩ := accepts_iff.mp (hall w hnil hw)
      rw [hrun] at ht
      exact .inr (Option.some.inj ht ▸ hfinished)
  · intro x hx
    have hmore : ∀ y ∈ w ++ [x], y ∈ a.reachableTokens := by
      intro y hy
      rcases List.mem_append.mp hy with hy | hy
      · exact hw y hy
      · rwa [List.mem_singleton.mp hy]
    have haccepts := accepts_iff.mp (hall (w ++ [x]) (by simp) hmore)
    obtain ⟨t, ht, -⟩ := reads_cons.mp ((reads_append hrun).mp haccepts)
    rw [ht, Option.isSome_some]

/-! ## The searches -/

/-- The states that the edges of a state enter. -/
def entered (a : Automaton) (s : State) : List State := (a.leaving s).map Prod.snd

/-- The states that the table's tokens lead to from a state. -/
def reachedByTokens (a : Automaton) (s : State) : List State :=
  a.reachableTokens.filterMap (a.consume s)

/-- The test of a state: the content may end there, unless it is `start`, and **every
token of the table** is taken. -/
def isFree (a : Automaton) (s : State) : Bool :=
  (decide (s = .start) || a.isFinished s) && a.reachableTokens.all fun t => (a.consume s t).isSome

/-- What is entered from a state is a state of the table, so the search along edges
finds an end. -/
theorem mem_states_of_mem_entered {t : State} (h : t ∈ a.entered s) : t ∈ a.states := by
  obtain ⟨⟨l, t⟩, hl, rfl⟩ := List.mem_map.mp h
  exact target_mem_states ((a.mem_leaving_iff s t l).mp hl)

theorem mem_states_of_mem_reachedByTokens {t : State} (h : t ∈ a.reachedByTokens s) :
    t ∈ a.states := by
  obtain ⟨x, -, ht⟩ := List.mem_filterMap.mp h
  obtain ⟨r, -, hedge⟩ := exists_of_consume ht
  exact target_mem_states hedge

/-- The search for the reachable states **ends**, and all states that it has seen are
those. Each round takes one state off the list, and each state is put on it once. -/
theorem exists_rounds_reachableStates (a : Automaton) : ∃ n ≤ a.stateCount + 1,
    (Search.round a.entered fun _ => true)^[n] (.going [.start] [.start]) =
      .passed a.reachableStates := by
  obtain ⟨n, hn, hrounds⟩ :=
    Search.exists_rounds (fun s t => mem_states_of_mem_entered) a.start_mem_states fun _ => true
  refine ⟨n, hn, hrounds.trans ?_⟩
  exact Search.outcome_of_forall fun _ _ => rfl

/-- The search for a state that is not free **ends**, and finds none exactly if the
table is unconstrained, as far as it has tokens. -/
theorem exists_rounds_isUnconstrained (a : Automaton) : ∃ n ≤ a.stateCount + 1, ∃ free,
    ((Search.round a.reachedByTokens a.isFree)^[n] (.going [.start] [.start])).verdict? =
      some free ∧ a.isUnconstrained = (!a.reachableTokens.isEmpty && free) := by
  obtain ⟨n, hn, hrounds⟩ :=
    Search.exists_rounds (fun s t => mem_states_of_mem_reachedByTokens) a.start_mem_states a.isFree
  refine ⟨n, hn, _, ?_, rfl⟩
  rw [hrounds, Search.verdict?_outcome]
  rfl

end Automaton

/-- **The test for unconstrained contents is exact.** Both searches it is made of are
over, for every table, after at most one round more than the table has states: the first
has gathered the reachable states, and the verdict of the second is the answer, where
there are tokens. In a table that keeps the rules and has tokens, the answer is yes
exactly if every word of them is accepted but perhaps the empty one. -/
theorem isUnconstrained_exact (a : Automaton) :
    (∃ n ≤ a.stateCount + 1,
      (Search.round a.entered fun _ => true)^[n] (.going [.start] [.start]) =
        .passed a.reachableStates) ∧
    (∃ n ≤ a.stateCount + 1, ∃ free,
      ((Search.round a.reachedByTokens a.isFree)^[n] (.going [.start] [.start])).verdict? =
        some free ∧ (Expression.single a).isUnconstrained = (!a.reachableTokens.isEmpty && free)) ∧
    (a.problems = [] → a.reachableTokens ≠ [] →
      ((Expression.single a).isUnconstrained = true ↔
        ∀ w, w ≠ [] → (∀ x ∈ w, x ∈ a.reachableTokens) →
          (Expression.single a).accepts w = true)) := by
  refine ⟨a.exists_rounds_reachableStates, a.exists_rounds_isUnconstrained, fun hproblems hne => ?_⟩
  have hrules : a.WellFormed := a.problems_eq_nil_iff.mp hproblems
  simp only [Expression.accepts_single]
  constructor
  · intro hfree w hw htokens
    exact Automaton.accepts_of_isUnconstrained hrules hfree hw htokens
  · exact Automaton.isUnconstrained_of_accepts hne

/-- The table of text with emphasis in it, any number of times. -/
def runningText : Automaton :=
  (Automaton.kleene 0
    (Automaton.merge 0 (.single .text) (.single (.element "em"))).automaton).automaton

/-- The table of terms, each with its description behind it. -/
def glossary : Automaton :=
  (Automaton.kleene 1
    (Automaton.append 0 (.single (.element "dt")) (.single (.element "dd"))).automaton).automaton

/-- Text and emphasis come in whatever order; a description does not come
without its term. -/
theorem isUnconstrained_exact_runningText :
    (runningText.problems = [] ∧ runningText.reachableTokens = [.text, .element "em"] ∧
        (Expression.single runningText).isUnconstrained = true ∧
        (Expression.single runningText).accepts [.element "em", .text, .text, .element "em"] =
          true) ∧
      (glossary.problems = [] ∧ glossary.reachableTokens = [.element "dt", .element "dd"] ∧
        (Expression.single glossary).accepts [.element "dd"] = false ∧
        (Expression.single glossary).isUnconstrained = false) := by
  have hproblems : runningText.problems = [] := by cbv
  have htokens : runningText.reachableTokens = [.text, .element "em"] := by cbv
  have hfree : (Expression.single runningText).isUnconstrained = true := by cbv
  have hall := ((isUnconstrained_exact runningText).2.2 hproblems (by simp [htokens])).mp hfree
  have haccepted := hall [.element "em", .text, .text, .element "em"] (by simp) (by simp [htokens])
  refine ⟨⟨hproblems, htokens, hfree, haccepted⟩, ?_⟩
  have hproblems : glossary.problems = [] := by cbv
  have htokens : glossary.reachableTokens = [.element "dt", .element "dd"] := by cbv
  have hrejected : (Expression.single glossary).accepts [.element "dd"] = false := by cbv
  refine ⟨hproblems, htokens, hrejected, ?_⟩
  rw [Bool.eq_false_iff]
  intro hfree
  have hall := ((isUnconstrained_exact glossary).2.2 hproblems (by simp [htokens])).mp hfree
  rw [hall [.element "dd"] (by simp) (by simp [htokens])] at hrejected
  cases hrejected

end TreeGrammar
