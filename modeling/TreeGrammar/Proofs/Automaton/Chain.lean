/-
The chain of a state, whole.

A run looks for an edge along the **chain** of a state, the states that follow it by
epsilon edges. The definition cuts the chain where it has one state more than the table
has rows. Here the chain is compared with the relation `Passes`, which knows no cut:
`mem_chain_iff` says that nothing is lost by it. Every state of a chain but the last has
a row, so a longer stretch meets some state twice, and what lies behind it is met sooner
by leaving out the round.

From this follow the readings of `consume`, `isFinished` and `epsilonReaches` that all
later proofs use, and the reading of `circles`: a chain that does not run in a circle
comes to an end.
-/
import Mathlib.Data.Finset.Card
import Mathlib.Logic.Relation
import TreeGrammar.Automaton.Check
import TreeGrammar.Proofs.Automaton.Edge

set_option autoImplicit false

namespace TreeGrammar.Automaton

/-- The state `s` **passes to** `r`: epsilon edges, perhaps none, lead from the one to
the other. -/
def Passes (a : Automaton) : State → State → Prop :=
  Relation.ReflTransGen fun s r => a.epsilon s = some r

/-- The state that follows after a number of epsilon edges. -/
def follow (a : Automaton) : Nat → State → Option State
  | 0, s => some s
  | n + 1, s => (a.epsilon s).bind (a.follow n)

variable {a : Automaton} {s r t : State}

/-! ## Following epsilon edges -/

/-- Following in two goes is following once, as far as both together. -/
theorem follow_add (a : Automaton) (m n : Nat) (s : State) :
    a.follow (m + n) s = (a.follow m s).bind (a.follow n) := by
  induction m generalizing s with
  | zero => simp [follow]
  | succ m ih =>
      rw [Nat.succ_add, follow, follow, Option.bind_assoc]
      congr 1
      funext r
      exact ih r

/-- A state passes to another exactly if some number of steps leads there. -/
theorem passes_iff_follow : a.Passes s r ↔ ∃ n, a.follow n s = some r := by
  constructor
  · intro h
    induction h using Relation.ReflTransGen.head_induction_on with
    | refl => exact ⟨0, rfl⟩
    | head hstep _ ih =>
        obtain ⟨n, hn⟩ := ih
        exact ⟨n + 1, by rw [follow, hstep, Option.bind_some, hn]⟩
  · rintro ⟨n, hn⟩
    induction n generalizing s with
    | zero =>
        rw [follow, Option.some.injEq] at hn
        rw [hn]
        exact Relation.ReflTransGen.refl
    | succ n ih =>
        obtain ⟨q, hq, hn⟩ := Option.bind_eq_some_iff.mp hn
        exact Relation.ReflTransGen.head hq (ih hn)

/-- A chain that is cut off after `n` states has those that fewer than `n`
steps lead to. -/
theorem mem_chainUpTo_iff (a : Automaton) (n : Nat) (s r : State) :
    r ∈ a.chainUpTo n s ↔ ∃ k < n, a.follow k s = some r := by
  induction n generalizing s with
  | zero => simp [chainUpTo]
  | succ n ih =>
      -- the chain is `s` and, behind it, the chain of the next state
      have hsplit : (∃ k < n + 1, a.follow k s = some r) ↔
          s = r ∨ ∃ q, a.epsilon s = some q ∧ ∃ k < n, a.follow k q = some r := by
        constructor
        · rintro ⟨k, hk, h⟩
          cases k with
          | zero => exact .inl (Option.some.inj h)
          | succ k =>
              obtain ⟨q, hq, h⟩ := Option.bind_eq_some_iff.mp h
              exact .inr ⟨q, hq, k, by omega, h⟩
        · rintro (rfl | ⟨q, hq, k, hk, h⟩)
          · exact ⟨0, by omega, rfl⟩
          · exact ⟨k + 1, by omega, by rw [follow, hq, Option.bind_some, h]⟩
      rw [hsplit, chainUpTo]
      cases hq : a.epsilon s with
      | none => simp [eq_comm]
      | some q => simp [ih, eq_comm]

/-- A state that has an epsilon edge has a row. There are only so many rows, which is
why a chain that is long enough comes back. -/
theorem mem_keys_of_epsilon (h : a.epsilon s = some r) : s ∈ a.rows.keys := by
  obtain ⟨row, hrow, -⟩ := Option.bind_eq_some_iff.mp h
  exact OrderedTable.mem_keys_of_get? hrow

/-- Every place on the way but the last has an epsilon edge, **and so a row**. A chain
without repetition is thus no longer than the rows of the table, and the one state more
where it ends. -/
theorem exists_place {n i : Nat} (h : a.follow n s = some r) (hi : i < n) :
    ∃ q, a.follow i s = some q ∧ q ∈ a.rows.keys := by
  have hsum : n = i + (n - i - 1 + 1) := by omega
  rw [hsum, follow_add] at h
  obtain ⟨q, hq, h⟩ := Option.bind_eq_some_iff.mp h
  obtain ⟨q', hq', -⟩ := Option.bind_eq_some_iff.mp h
  exact ⟨q, hq, mem_keys_of_epsilon hq'⟩

/-- Where two places on the way are the same state, the way from the one to the other
**can be left out**. -/
theorem follow_skip {n i j : Nat} (h : a.follow n s = some r) (hj : j ≤ n)
    (hi : a.follow i s = some t) (hjt : a.follow j s = some t) :
    a.follow (i + (n - j)) s = some r := by
  have hsum : n = j + (n - j) := by omega
  rw [hsum, follow_add, hjt, Option.bind_some] at h
  rw [follow_add, hi, Option.bind_some, h]

/-- What follows after some number of epsilon edges follows after no more of them than
the table has rows. The induction is on that number; where it is too great, two places
on the way are the same state. -/
theorem exists_follow_le {n : Nat} (h : a.follow n s = some r) :
    ∃ k ≤ a.rows.size, a.follow k s = some r := by
  induction n using Nat.strong_induction_on with
  | _ n ih =>
      by_cases hn : n ≤ a.rows.size
      · exact ⟨n, hn, h⟩
      have hmaps : ∀ i ∈ Finset.range n,
          (a.follow i s).getD .start ∈ a.rows.keys.toFinset := by
        intro i hi
        obtain ⟨q, hq, hmem⟩ := exists_place h (Finset.mem_range.mp hi)
        rw [hq, Option.getD_some, List.mem_toFinset]
        exact hmem
      -- more places than rows
      have hcard : a.rows.keys.toFinset.card < (Finset.range n).card := by
        have hle := a.rows.keys.toFinset_card_le
        have hsize : a.rows.keys.length = a.rows.size := List.length_map ..
        rw [Finset.card_range]
        omega
      have hcut : ∀ i j, i < j → j < n →
          (a.follow i s).getD .start = (a.follow j s).getD .start →
          ∃ k ≤ a.rows.size, a.follow k s = some r := by
        intro i j hij hj heq
        obtain ⟨q, hq, -⟩ := exists_place h (by omega : i < n)
        obtain ⟨q', hq', -⟩ := exists_place h hj
        rw [hq, hq', Option.getD_some, Option.getD_some] at heq
        rw [← heq] at hq'
        have hshorter := follow_skip h (Nat.le_of_lt hj) hq hq'
        exact ih (i + (n - j)) (by omega) hshorter
      obtain ⟨i, hi, j, hj, hne, heq⟩ :=
        Finset.exists_ne_map_eq_of_card_lt_of_maps_to hcard hmaps
      rcases Nat.lt_or_gt_of_ne hne with hij | hij
      · exact hcut i j hij (Finset.mem_range.mp hj) heq
      · exact hcut j i hij (Finset.mem_range.mp hi) heq.symm

/-- The chain of a state holds **all states that it passes to**, although it is
cut. Cutting it at the number of rows loses nothing: what is reached later was
reached before. -/
theorem mem_chain_iff (a : Automaton) (s r : State) : r ∈ a.chain s ↔ a.Passes s r := by
  unfold chain
  rw [mem_chainUpTo_iff, passes_iff_follow]
  constructor
  · rintro ⟨k, -, h⟩
    exact ⟨k, h⟩
  · rintro ⟨n, h⟩
    obtain ⟨k, hk, h⟩ := exists_follow_le h
    exact ⟨k, by omega, h⟩

/-! ## What a state can do -/

theorem passes_refl (a : Automaton) (s : State) : a.Passes s s := Relation.ReflTransGen.refl

/-- A first epsilon edge may be put before a chain. -/
theorem Passes.head (h : a.epsilon s = some r) (hr : a.Passes r t) : a.Passes s t :=
  Relation.ReflTransGen.head h hr

/-- A state passes to itself and to what its epsilon edge enters passes to. This is how
chains are taken apart, one edge at a time from the front. -/
theorem passes_iff : a.Passes s t ↔ s = t ∨ ∃ r, a.epsilon s = some r ∧ a.Passes r t :=
  Relation.ReflTransGen.cases_head_iff

/-- A state without an epsilon edge passes to itself alone. The chains of `fin`, of new
states and of all states of simple tables are of this kind. -/
theorem eq_of_passes (h : a.Passes s t) (hs : a.epsilon s = none) : t = s := by
  rcases passes_iff.mp h with heq | ⟨r, hr, -⟩
  · exact heq.symm
  · rw [hs] at hr
    exact absurd hr (by simp)

/-- A state that no edge enters lies on no chain but its own. -/
theorem eq_of_passes_of_forall_ne (h : a.Passes s t) (hs : ∀ l r, a.target s l ≠ some r) :
    t = s := by
  refine eq_of_passes h ?_
  rw [epsilon, Option.eq_none_iff_forall_ne_some]
  exact hs .epsilon

/-- Only a state with an epsilon edge passes on, and only to a state of the table. It is
used for states that have just been drawn, and are not yet anyone's. -/
theorem eq_of_passes_notMem (h : a.Passes s r) (hr : r ∉ a.states) : s = r := by
  rcases Relation.ReflTransGen.cases_tail h with heq | ⟨q, -, hq⟩
  · exact heq.symm
  · exact absurd (target_mem_states hq) hr

/-- What passes to `fin` from elsewhere is a state of the table. An edge leaves it, for
else it would be `fin` itself. -/
theorem mem_of_passes_fin (hs : s ≠ .fin) (hp : a.Passes s .fin) : s ∈ a.states := by
  rcases passes_iff.mp hp with heq | ⟨r, hr, -⟩
  · exact absurd heq hs
  · exact source_mem_states hr

/-- Where a chain meets an edge, **an edge leaves its first state**. It is the epsilon
edge if the chain moves, and the edge that was met if it does not. -/
theorem exists_target_of_passes {l : Label} (hp : a.Passes s r) (h : a.target r l = some t) :
    ∃ l' t', a.target s l' = some t' := by
  rcases passes_iff.mp hp with rfl | ⟨q, hq, -⟩
  · exact ⟨l, t, h⟩
  · exact ⟨.epsilon, q, hq⟩

/-- Two states of one chain: one of them is on the chain of the other. A chain does not
branch, so two places on it are one behind the other. -/
theorem passes_or_passes (hr : a.Passes s r) (ht : a.Passes s t) : a.Passes r t ∨ a.Passes t r :=
  Relation.ReflTransGen.total_of_right_unique
    (fun _ _ _ h h' => Option.some.inj (h.symm.trans h')) hr ht

/-- The content may end exactly at the states whose chain comes **to `fin`**. The chain
is cut off at the number of states, which loses nothing. -/
theorem isFinished_iff (a : Automaton) (s : State) :
    a.isFinished s = true ↔ a.Passes s .fin := by
  unfold isFinished
  rw [decide_eq_true_iff, mem_chain_iff]

/-- The search that starts behind the first epsilon edge finds what the chain from there
comes to. -/
theorem epsilonReaches_iff (a : Automaton) (s goal : State) :
    a.epsilonReaches s goal = true ↔ ∃ r, a.epsilon s = some r ∧ a.Passes r goal := by
  unfold epsilonReaches
  cases h : a.epsilon s with
  | none => simp
  | some r => simp [mem_chain_iff]

/-- The state `s` **takes** a token and enters `t`: by its own edge or, where it has
none for the token, like the state that its epsilon edge enters. -/
inductive Takes (a : Automaton) (x : Token) : State → State → Prop
  | here {s t : State} (h : a.target s (.token x) = some t) : Takes a x s t
  | later {s r t : State} (hnone : a.target s (.token x) = none) (hr : a.epsilon s = some r)
      (ht : Takes a x r t) : Takes a x s t

variable {x : Token}

/-- A state takes a token to one state at most: the first edge for it on the chain
counts, and a chain does not branch. -/
theorem Takes.unique (h : a.Takes x s t) (h' : a.Takes x s r) : t = r := by
  induction h with
  | here ht =>
      cases h' with
      | here hr => exact Option.some.inj (ht.symm.trans hr)
      | later hnone _ _ => exact absurd (ht.symm.trans hnone) (by simp)
  | later hnone hq _ ih =>
      cases h' with
      | here hr => exact absurd (hr.symm.trans hnone) (by simp)
      | later _ hq' hr =>
          rw [Option.some.inj (hq'.symm.trans hq)] at hr
          exact ih hr

/-- Where a token is taken, an edge of the chain takes it. -/
theorem Takes.exists_edge (h : a.Takes x s t) :
    ∃ r, a.Passes s r ∧ a.target r (.token x) = some t := by
  induction h with
  | here ht => exact ⟨_, a.passes_refl _, ht⟩
  | later _ hq _ ih =>
      obtain ⟨r, hr, ht⟩ := ih
      exact ⟨r, hr.head hq, ht⟩

/-- The first edge for a token on a chain that is cut off is the first on the
whole chain. -/
private theorem takes_of_findSome? {n : Nat}
    (h : (a.chainUpTo n s).findSome? (fun r => a.target r (.token x)) = some t) :
    a.Takes x s t := by
  induction n generalizing s with
  | zero => simp [chainUpTo] at h
  | succ n ih =>
      rw [chainUpTo] at h
      cases hs : a.target s (.token x) with
      | some t' =>
          have heq : t' = t := by
            cases hq : a.epsilon s <;> simpa [hq, List.findSome?_cons, hs] using h
          rw [heq] at hs
          exact .here hs
      | none =>
          cases hq : a.epsilon s with
          | none => simp [hq, hs] at h
          | some q =>
              simp only [hq, List.findSome?_cons, hs] at h
              exact .later hs hq (ih h)

/-- Running a table **takes a token** along the chain, and the cut of the chain does not
show. From here on, what a table takes is a matter of edges alone. -/
theorem consume_eq_some_iff : a.consume s x = some t ↔ a.Takes x s t := by
  constructor
  · exact takes_of_findSome?
  · intro h
    obtain ⟨r, hr, ht⟩ := h.exists_edge
    cases hc : a.consume s x with
    | some t' => rw [h.unique (takes_of_findSome? hc)]
    | none =>
        have hnone := List.findSome?_eq_none_iff.mp hc r ((a.mem_chain_iff s r).mpr hr)
        exact absurd (ht.symm.trans hnone) (by simp)

/-- A token is taken by an edge of the chain. That it is the first one is forgotten
here, which is enough wherever paths are built. -/
theorem exists_of_consume (h : a.consume s x = some t) :
    ∃ r, a.Passes s r ∧ a.target r (.token x) = some t :=
  (consume_eq_some_iff.mp h).exists_edge

/-- Where some edge of the chain is for the token, the token is taken, **by that edge or
one before it**. -/
theorem exists_consume (hr : a.Passes s r) (ht : a.target r (.token x) = some t) :
    ∃ t', a.consume s x = some t' := by
  cases h : a.consume s x with
  | some t' => exact ⟨t', rfl⟩
  | none =>
      have hnone := List.findSome?_eq_none_iff.mp h r ((a.mem_chain_iff s r).mpr hr)
      exact absurd (ht.symm.trans hnone) (by simp)

/-! ## Chains that end -/

/-- The chain of a state **comes to an end**. -/
def Halts (a : Automaton) (s : State) : Prop := Acc (fun r q => a.epsilon q = some r) s

theorem halts_of_epsilon (h : a.epsilon s = some r) (hr : a.Halts r) : a.Halts s := by
  refine Acc.intro s fun q hq => ?_
  rw [h, Option.some.injEq] at hq
  rw [← hq]
  exact hr

theorem halts_of_epsilon_eq_none (h : a.epsilon s = none) : a.Halts s := by
  refine Acc.intro s fun q hq => ?_
  rw [h] at hq
  exact absurd hq (by simp)

/-- A chain that halts has a last state. It is the one that an operator hands
over from. -/
theorem Halts.exists_last (h : a.Halts s) : ∃ r, a.Passes s r ∧ a.epsilon r = none := by
  induction h with
  | intro s _ ih =>
      cases hs : a.epsilon s with
      | none => exact ⟨s, a.passes_refl s, hs⟩
      | some q =>
          obtain ⟨r, hr, hlast⟩ := ih q hs
          exact ⟨r, hr.head hs, hlast⟩

/-- A state that the bounded search finds no circle from **halts**: a chain longer than
the number of states would come back. -/
theorem circles_eq_false_iff (a : Automaton) (s : State) :
    a.circles s = false ↔ a.Halts s := by
  unfold circles
  rw [List.all_eq_false]
  constructor
  · rintro ⟨r, hr, hlast⟩
    have hnone : a.epsilon r = none := by simpa using hlast
    have hpasses := (a.mem_chain_iff s r).mp hr
    induction hpasses using Relation.ReflTransGen.head_induction_on with
    | refl => exact halts_of_epsilon_eq_none hnone
    | head hstep hrest ih =>
        exact halts_of_epsilon hstep (ih ((a.mem_chain_iff _ r).mpr hrest))
  · intro h
    obtain ⟨r, hr, hlast⟩ := h.exists_last
    exact ⟨r, (a.mem_chain_iff s r).mpr hr, by simp [hlast]⟩

end TreeGrammar.Automaton
