/-
Circles of epsilon edges, and the search for them.

`circles` reads off the chain of a state whether it runs in a circle. A search does not
know the chain: it goes from state to state, keeps those that it has left, and stops at
a state without an epsilon edge or at one that it has left before. Here this search is a
machine that takes one edge a round. It is over after at most one round for each row and
one more, in whatever table, with what `circles` says (`exists_rounds`); and what it
finds is a state that **returns** to itself, which may lie anywhere behind the state
where the search began. So the check passes exactly those tables that keep the rules on
single edges and in which no state returns (`check_exact`).
-/
import Mathlib.Logic.Function.Iterate
import TreeGrammar.Proofs.Automaton.Shape

set_option autoImplicit false

namespace TreeGrammar.Automaton

/-- One epsilon edge or more lead from the state back to itself: it **returns**. -/
def Returns (a : Automaton) (s : State) : Prop :=
  Relation.TransGen (fun r t => a.epsilon r = some t) s s

variable {a : Automaton} {s r now next : State} {left : List State}

/-! ## Returning and halting -/

theorem Halts.of_epsilon (h : a.Halts s) (hr : a.epsilon s = some r) : a.Halts r := h.inv hr

/-- Behind a state that halts **all states halt**. The relation is accessibility, which
is passed on to what is smaller. -/
theorem Halts.passes (h : a.Halts s) (hr : a.Passes s r) : a.Halts r := by
  induction hr with
  | refl => exact h
  | tail _ hstep ih => exact ih.of_epsilon hstep

/-- A state that halts does not return. What follows a state that returns also returns,
so the induction is on the chain that comes to an end. -/
theorem Halts.not_returns (h : a.Halts s) : ¬a.Returns s := by
  induction h with
  | intro s _ ih =>
      intro hreturns
      obtain ⟨r, hr, hback⟩ := Relation.TransGen.head'_iff.mp hreturns
      exact ih r hr (Relation.TransGen.tail' hback hr)

/-! ## The search -/

/-- Where the search stands **between two rounds**. -/
inductive EpsilonSearch where
  /-- It goes on from a state, and knows which states it has left. -/
  | going (left : List State) (now : State)
  /-- It is over, and has found a circle or come to an end. -/
  | ended (circle : Bool)
deriving DecidableEq

/-- One **round**: the search takes the epsilon edge of the state where it stands,
unless there is none or it has left that state before. -/
def EpsilonSearch.round (a : Automaton) : EpsilonSearch → EpsilonSearch
  | going left now =>
      match a.epsilon now with
      | none => ended false
      | some next => if now ∈ left then ended true else going (left ++ [now]) next
  | ended circle => ended circle

namespace EpsilonSearch

/-- Where no epsilon edge goes on, the search has ended without a circle. -/
theorem round_of_epsilon_eq_none (h : a.epsilon now = none) :
    round a (.going left now) = .ended false := by
  rw [round, h]

/-- Where it comes to a state that it has left before, it has found a circle. -/
theorem round_of_mem (h : a.epsilon now = some next) (hmem : now ∈ left) :
    round a (.going left now) = .ended true := by
  rw [round, h]
  exact if_pos hmem

theorem round_of_notMem (h : a.epsilon now = some next) (hmem : now ∉ left) :
    round a (.going left now) = .going (left ++ [now]) next := by
  rw [round, h]
  exact if_neg hmem

/-- **The search comes to an end**, after no more rounds than there are rows whose
states it has not left, and one more: at the end of the chain, or where it passes to a
state that returns. All states that it has left lead to where it stands, which carries
the induction. -/
theorem exists_rounds_of_left
    (hleft : ∀ r ∈ left, Relation.TransGen (fun q t => a.epsilon q = some t) r now) :
    ∃ n ≤ unseen a.rows.keys left + 1,
      ((round a)^[n] (.going left now) = .ended false ∧ a.Halts now) ∨
        ((round a)^[n] (.going left now) = .ended true ∧ ∃ r, a.Passes now r ∧ a.Returns r) := by
  induction hcount : unseen a.rows.keys left using Nat.strong_induction_on
    generalizing left now with
  | _ count ih =>
      -- a chain without a next edge halts; a state that was left before closes a circle;
      -- otherwise one state more is left
      cases hnow : a.epsilon now with
      | none =>
          exact ⟨1, by omega, .inl ⟨round_of_epsilon_eq_none hnow, halts_of_epsilon_eq_none hnow⟩⟩
      | some next =>
          by_cases hmem : now ∈ left
          · exact ⟨1, by omega, .inr ⟨round_of_mem hnow hmem, now, a.passes_refl now,
              hleft now hmem⟩⟩
          · have hfewer : unseen a.rows.keys (left ++ [now]) < count :=
              hcount ▸ unseen_lt (fun r hr => List.mem_append_left _ hr)
                (mem_keys_of_epsilon hnow) hmem
                (List.mem_append_right left (List.mem_singleton_self now))
            have hlater :
                ∀ r ∈ left ++ [now],
                  Relation.TransGen (fun q t => a.epsilon q = some t) r next := by
              intro r hr
              rcases List.mem_append.mp hr with hr | hr
              · exact (hleft r hr).tail hnow
              · rw [List.mem_singleton.mp hr]
                exact .single hnow
            obtain ⟨n, hn, hrounds⟩ := ih _ hfewer hlater rfl
            refine ⟨n + 1, by omega, ?_⟩
            rw [Function.iterate_succ_apply, round_of_notMem hnow hmem]
            rcases hrounds with ⟨hended, hhalts⟩ | ⟨hended, r, hr, hreturns⟩
            · exact .inl ⟨hended, halts_of_epsilon hnow hhalts⟩
            · exact .inr ⟨hended, r, hr.head hnow, hreturns⟩

/-- From any state the search is over after at most **one round for each row**, and one
more. Each round but the last leaves a state for the first time, and only states with a
row can be left. -/
theorem exists_rounds_of_start (a : Automaton) (s : State) :
    ∃ n ≤ a.rows.size + 1,
      ((round a)^[n] (.going [] s) = .ended false ∧ a.Halts s) ∨
        ((round a)^[n] (.going [] s) = .ended true ∧ ∃ r, a.Passes s r ∧ a.Returns r) := by
  have hnone : ∀ r ∈ ([] : List State), Relation.TransGen (fun q t => a.epsilon q = some t) r s :=
    fun r hr => absurd hr List.not_mem_nil
  obtain ⟨n, hn, hrounds⟩ := exists_rounds_of_left hnone
  have hrows : unseen a.rows.keys [] ≤ a.rows.size :=
    (List.length_filter_le _ _).trans (Nat.le_of_eq (List.length_map _))
  exact ⟨n, by omega, hrounds⟩

end EpsilonSearch

/-! ## What the search finds -/

/-- A chain that does not come to an end passes to **a state that returns**, and no
other chain does. Such a chain is infinite on finitely many states, so it comes to one
of them twice. -/
theorem circles_iff (a : Automaton) (s : State) : a.circles s = true ↔ ∃ r, a.Passes s r ∧
    a.Returns r := by
  constructor
  · intro h
    obtain ⟨n, -, ⟨-, hhalts⟩ | ⟨-, hreturns⟩⟩ := EpsilonSearch.exists_rounds_of_start a s
    · rw [(a.circles_eq_false_iff s).mpr hhalts] at h
      exact absurd h Bool.false_ne_true
    · exact hreturns
  · rintro ⟨r, hr, hreturns⟩
    by_contra hcircles
    have hhalts : a.Halts s := (a.circles_eq_false_iff s).mp (Bool.eq_false_iff.mpr hcircles)
    exact (hhalts.passes hr).not_returns hreturns

/-- A circle of two states that is entered from a third: it is met from each
of the three. -/
example :
    [State.id 1, .id 2, .id 3].all
      (ofEdges
        [⟨.id 1, .epsilon, .id 2⟩, ⟨.id 2, .epsilon, .id 3⟩,
          ⟨.id 3, .epsilon, .id 2⟩]).circles := by
  decide

/-- The search is over with **what `circles` says**. The bound is never met, since the
search ends before it. -/
theorem EpsilonSearch.exists_rounds (a : Automaton) (s : State) :
    ∃ n ≤ a.rows.size + 1, (EpsilonSearch.round a)^[n] (.going [] s) = .ended (a.circles s) := by
  obtain ⟨n, hn, ⟨hended, hhalts⟩ | ⟨hended, hreturns⟩⟩ := exists_rounds_of_start a s
  · exact ⟨n, hn, by rw [hended, (a.circles_eq_false_iff s).mpr hhalts]⟩
  · exact ⟨n, hn, by rw [hended, (a.circles_iff s).mpr hreturns]⟩

/-- All chains of a table come to an end exactly if **no state returns**. This is the
form in which a maintainer would state that a table has no circle of epsilon edges. -/
theorem forall_halts_iff : (∀ s, a.Halts s) ↔ ∀ s, ¬a.Returns s := by
  constructor
  · exact fun h s => (h s).not_returns
  · intro h s
    rw [← circles_eq_false_iff, Bool.eq_false_iff, Ne, circles_iff]
    rintro ⟨r, -, hreturns⟩
    exact h r hreturns

/-- **The check is exact**, in whatever table: it has nothing to report exactly if no
edge leaves `fin`, none enters `start`, an epsilon edge of `start` enters `fin`, and no
state returns to itself by epsilon edges. And each search along epsilon edges comes to
an end, with the answer that the check goes by. -/
theorem check_exact (a : Automaton) :
    (a.problems = [] ↔
      (∀ l, a.target .fin l = none) ∧ (∀ s l, a.target s l ≠ some .start) ∧
        (∀ t, a.epsilon .start = some t → t = .fin) ∧
        ∀ s, ¬Relation.TransGen (fun r t => a.epsilon r = some t) s s) ∧
    ∀ s, ∃ n ≤ a.rows.size + 1, (EpsilonSearch.round a)^[n] (.going [] s) =
      .ended (a.circles s) := by
  refine ⟨(problems_eq_nil_iff a).trans ⟨fun h => ?_, ?_⟩, EpsilonSearch.exists_rounds a⟩
  · exact ⟨h.target_fin, h.target_ne_start, h.epsilon_start, forall_halts_iff.mp h.halts⟩
  · rintro ⟨hfin, hstart, hepsilon, hreturns⟩
    exact ⟨hstart, hfin, hepsilon, forall_halts_iff.mpr hreturns⟩

end TreeGrammar.Automaton
