/-
What a state can do, place by place.

The chain of a state is cut, and so may run in a circle without harm to a run. Here it
is counted out: `follow` says what stands at each place of the chain, however far on,
and the four readings of a chain are said of all places (`walks_uncut`). The cut leaves
room for just one state more than there are rows, and the last state of a chain may be
one without a row.
-/
import TreeGrammar.Proofs.Automaton.Reach

set_option autoImplicit false

namespace TreeGrammar.Automaton

variable {a : Automaton} {s r t : State} {x : Token}

/-- The **first place** on the chain with an edge for the token says where it
is entered. -/
def FirstAt (a : Automaton) (x : Token) (s t : State) (k : Nat) : Prop :=
  (∃ r, a.follow k s = some r ∧ a.target r (.token x) = some t) ∧
    ∀ j < k, ∀ r, a.follow j s = some r → a.target r (.token x) = none

/-- At the very beginning of a chain stands the state itself. -/
theorem firstAt_zero : a.FirstAt x s t 0 ↔ a.target s (.token x) = some t := by
  constructor
  · rintro ⟨⟨r, hr, ht⟩, -⟩
    rwa [Option.some.inj hr]
  · intro h
    exact ⟨⟨s, rfl, h⟩, fun j hj => absurd hj (Nat.not_lt_zero j)⟩

/-- One place further on the chain is a place on the chain of the next state. -/
theorem firstAt_succ {k : Nat} : a.FirstAt x s t (k + 1) ↔
    a.target s (.token x) = none ∧ ∃ q, a.epsilon s = some q ∧ a.FirstAt x q t k := by
  constructor
  · rintro ⟨⟨r, hr, ht⟩, hbefore⟩
    obtain ⟨q, hq, hr⟩ := Option.bind_eq_some_iff.mp hr
    refine ⟨hbefore 0 (Nat.succ_pos k) s rfl, q, hq, ⟨r, hr, ht⟩, fun j hj p hp => ?_⟩
    exact hbefore (j + 1) (Nat.succ_lt_succ hj) p (by rw [follow, hq, Option.bind_some, hp])
  · rintro ⟨hnone, q, hq, ⟨r, hr, ht⟩, hbefore⟩
    refine ⟨⟨r, by rw [follow, hq, Option.bind_some, hr], ht⟩, fun j hj p hp => ?_⟩
    cases j with
    | zero => rwa [← Option.some.inj hp]
    | succ j =>
        rw [follow, hq, Option.bind_some] at hp
        exact hbefore j (Nat.lt_of_succ_lt_succ hj) p hp

/-- A token is taken **at the first place** that has an edge for it. The place is
counted, since the search of the program gives up after a number of places. -/
theorem takes_iff_firstAt : a.Takes x s t ↔ ∃ k, a.FirstAt x s t k := by
  constructor
  · intro h
    induction h with
    | here ht => exact ⟨0, firstAt_zero.mpr ht⟩
    | later hnone hq _ ih =>
        obtain ⟨k, hk⟩ := ih
        exact ⟨k + 1, firstAt_succ.mpr ⟨hnone, _, hq, hk⟩⟩
  · rintro ⟨k, hk⟩
    induction k generalizing s with
    | zero => exact .here (firstAt_zero.mp hk)
    | succ k ih =>
        obtain ⟨hnone, q, hq, hk⟩ := firstAt_succ.mp hk
        exact .later hnone hq (ih hk)

/-- What is left to the next state follows **after one edge or more**. The chain without
a bound is the union of its finite parts. -/
theorem exists_epsilon_passes_iff :
    (∃ q, a.epsilon s = some q ∧ a.Passes q r) ↔ ∃ k, 1 ≤ k ∧ a.follow k s = some r := by
  simp only [passes_iff_follow]
  constructor
  · rintro ⟨q, hq, k, hk⟩
    exact ⟨k + 1, Nat.succ_pos k, by rw [follow, hq, Option.bind_some, hk]⟩
  · rintro ⟨k, hpos, hk⟩
    obtain ⟨k, rfl⟩ := Nat.exists_eq_succ_of_ne_zero (Nat.ne_of_gt hpos)
    obtain ⟨q, hq, hk⟩ := Option.bind_eq_some_iff.mp hk
    exact ⟨q, hq, k, hk⟩

/-- A token is taken exactly if **some place** has an edge for it. No bound on the
length of the chain is left in this form, so circles are covered as well. -/
theorem isSome_consume_iff :
    (a.consume s x).isSome = true ↔ ∃ k r t, a.follow k s = some r ∧
      a.target r (.token x) = some t := by
  rw [Option.isSome_iff_exists]
  constructor
  · rintro ⟨t, ht⟩
    obtain ⟨r, hr, hrt⟩ := exists_of_consume ht
    obtain ⟨k, hk⟩ := passes_iff_follow.mp hr
    exact ⟨k, r, _, hk, hrt⟩
  · rintro ⟨k, r, t, hk, hrt⟩
    exact exists_consume (passes_iff_follow.mpr ⟨k, hk⟩) hrt

/-- A token is rejected exactly if **no state of the whole chain** has an edge for it,
however long the chain is. -/
theorem consume_eq_none_iff :
    a.consume s x = none ↔ ∀ k r, a.follow k s = some r → a.target r (.token x) = none := by
  rw [← Option.not_isSome_iff_eq_none, isSome_consume_iff]
  constructor
  · intro h k r hr
    rw [Option.eq_none_iff_forall_ne_some]
    exact fun t ht => h ⟨k, r, t, hr, ht⟩
  · rintro h ⟨k, r, t, hr, ht⟩
    rw [h k r hr] at ht
    exact absurd ht (by simp)

/-- **No chain is cut short**, in whatever table, also where epsilon edges run in
circles. A token leads where the first place of the chain leads that has an edge for it,
and is refused if no place has one; a state is an end if `fin` stands at some place; it
reaches by epsilon edges what stands at a place behind its own; and it expects the
tokens of the edges that leave the places, each once. -/
theorem walks_uncut (a : Automaton) (s : State) :
    (∀ x t, a.consume s x = some t ↔
      ∃ k, (∃ r, a.follow k s = some r ∧ a.target r (.token x) = some t) ∧
        ∀ j < k, ∀ r, a.follow j s = some r → a.target r (.token x) = none) ∧
    (∀ x, a.consume s x = none ↔ ∀ k r, a.follow k s = some r → a.target r (.token x) = none) ∧
    (a.isFinished s = true ↔ ∃ k, a.follow k s = some .fin) ∧
    (∀ goal, a.epsilonReaches s goal = true ↔ ∃ k, 1 ≤ k ∧ a.follow k s = some goal) ∧
    (a.expected s).Nodup ∧
    ∀ x, x ∈ a.expected s ↔ ∃ k r t, a.follow k s = some r ∧ a.target r (.token x) = some t := by
  refine ⟨fun x t => ?_, fun x => consume_eq_none_iff, ?_, fun goal => ?_, nodup_eraseDups _,
    fun x => mem_expected_iff.trans isSome_consume_iff⟩
  · exact consume_eq_some_iff.trans takes_iff_firstAt
  · exact (a.isFinished_iff s).trans passes_iff_follow
  · exact (a.epsilonReaches_iff s goal).trans exists_epsilon_passes_iff

/-- The table of the empty word has one row, and the end stands one place behind it. -/
example : State.fin ∉ emptyWord.chainUpTo emptyWord.rows.size .start ∧
    State.fin ∈ emptyWord.chain .start := by decide

end TreeGrammar.Automaton
