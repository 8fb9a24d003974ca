/-
What one table after another spells.

A path through `append` runs through the first table, and then through the second one.
The two parts meet where the path crosses: at the join, by an edge that was given to a
feeder, or at `start`. So every word is the product of two (`spelled_append_le`), and
each such product is there unless it begins with an edge that was lost at `start`
(`mul_spelled_le_append`). Edges lost at a feeder cost nothing here: the join has them
too. They may be shadowed there, though, which is the subject of
`TreeGrammar.Proofs.Automaton.AppendChains`.
-/
import TreeGrammar.Proofs.Automaton.Append

set_option autoImplicit false

namespace TreeGrammar.Automaton

open Appending

variable {n : Nat} {a b : Automaton} {s r t goal : State} {l : Label} {x : Token} {u w : List Token}

/-! ## Every word is a product -/

/-- What is left to read from a state, in terms of the two tables: in the second table
the rest of a word of it, and in the first one the rest of a word of it **and then a
word of the second**. -/
structure AppendRest (n : Nat) (a b : Automaton) (s : State) (w : List Token) : Prop where
  right : s ≠ .start → s ∈ (right n a b).states → (right n a b).Path .fin s w
  join : s = join n a b → w ∈ (Appending.right n a b).spelled
  left : s ≠ .fin → s ∈ a.states →
    ∃ u v, w = u ++ v ∧ a.Path .fin s u ∧ v ∈ (Appending.right n a b).spelled

/-- A path of the result to `fin` **is a rest** in terms of the two tables, from
wherever it starts. The proof goes from the end of the path back, one kind of
edge at a time. -/
theorem appendRest_of_path (ha : a.WellFormed) (hb : b.WellFormed) (hwa : a.Within n)
    (hwb : b.Within n) (p : (append n a b).automaton.Path .fin s w) : AppendRest n a b s w := by
  have hbr : (right n a b).WellFormed := right_wellFormed hb
  -- from the end of the path back; the three parts are about the state that it has come from
  induction p with
  | refl =>
      refine ⟨fun _ _ => .refl, fun h => absurd h.symm join_ne_fin, fun h => absurd rfl h⟩
  | @step s r l w h _ ih =>
      -- past an edge that opens the second table, the rest is a path of the second table
      have hopening : (right n a b).target .start l = some r →
          l.word ++ w ∈ (right n a b).spelled :=
        fun hr => Path.step hr (ih.right (hbr.ne_start hr) (target_mem_states hr))
      refine ⟨?_, ?_, ?_⟩
      · intro hs hmem
        have hr := target_append_right ha hb hwa hwb hs hmem h
        exact .step hr (ih.right (hbr.ne_start hr) (target_mem_states hr))
      · rintro rfl
        rcases (target_append ha hb hwa hwb).mp h with h | ⟨hf, -, -⟩ | ⟨-, h⟩ | ⟨-, h⟩
        · exact absurd (source_mem_of_moveEnd h) (join_notMem_left hwa)
        · exact absurd (feeder_mem_left ha hwa hf) (join_notMem_left hwa)
        · exact absurd (source_mem_states h) (join_notMem_right hwb)
        · exact hopening h
      · intro hs hmem
        rcases (target_append ha hb hwa hwb).mp h with
          h | ⟨hf, -, h⟩ | ⟨hstart, h⟩ | ⟨-, -⟩ | ⟨hnull, -, h⟩
        · -- an edge of the first table: its word is over if the edge enters the join
          obtain ⟨-, t₀, ht₀, rfl⟩ := target_moveEnd.mp h
          by_cases hfin : t₀ = .fin
          · subst hfin
            exact ⟨l.word, w, rfl, List.append_nil l.word ▸ .step ht₀ .refl, ih.join (if_pos rfl)⟩
          · rw [if_neg hfin] at ih
            obtain ⟨u, v, rfl, hu, hv⟩ := ih.left hfin (target_mem_states ht₀)
            exact ⟨l.word ++ u, v, (List.append_assoc ..).symm, .step ht₀ hu, hv⟩
        · -- an edge given to a feeder: the first word is over, since a feeder passes to the end
          exact ⟨[], _, rfl, path_of_passes ((mem_feeders_iff ha hwa).mp hf).2.2, hopening h⟩
        · exact absurd hmem (notMem_left_of_right hwa hb hstart h)
        · exact absurd hmem (join_notMem_left hwa)
        · -- an edge given to `start`: the first word is empty
          obtain ⟨t, ht⟩ := Option.isSome_iff_exists.mp hnull
          have htfin := ha.epsilon_start t ht
          rw [htfin] at ht
          exact ⟨[], _, rfl, path_of_passes ((passes_refl a .fin).head ht), hopening h⟩

/-- What one table after another spells is **a word of the first and then a word of the
second**. This holds whatever was lost: the operator makes up no words. -/
theorem spelled_append_le (ha : a.WellFormed) (hb : b.WellFormed) (hwa : a.Within n)
    (hwb : b.Within n) : (append n a b).automaton.spelled ≤ a.spelled * b.spelled := by
  intro w hw
  obtain ⟨u, v, rfl, hu, hv⟩ :=
    (appendRest_of_path ha hb hwa hwb hw).left (by simp) (start_mem_states a)
  rw [right, spelled_apart] at hv
  exact Language.append_mem_mul hu hv

/-! ## Every product is a word -/

/-- The edges that open the second table find their place at `start`, as far as they are
put there. -/
def OpensFreely (n : Nat) (a b : Automaton) : Prop :=
  (a.epsilon .start).isSome = true → ∀ l t, (right n a b).target .start l = some t →
    (left n a b).target .start l = none

/-- A path in the second table that does not begin at its `start` is a path of the
result. It cannot come back to `start`, so the edges that open the table are not needed
for it. -/
theorem path_append_right (ha : a.WellFormed) (hb : b.WellFormed) (hwa : a.Within n)
    (hwb : b.Within n) (hs : s ≠ .start) (p : (right n a b).Path goal s w) :
    (append n a b).automaton.Path goal s w := by
  refine p.mono_of_ne_start (right_wellFormed hb) (fun s l t hs h => ?_) hs
  exact (target_append ha hb hwa hwb).mpr (.right hs h)

/-- A word of the second table can be read **wherever its opening edges are**. Three
kinds of edges open it: those at the feeders, at the join and at `start`. -/
theorem path_append_opening (ha : a.WellFormed) (hb : b.WellFormed) (hwa : a.Within n)
    (hwb : b.Within n)
    (h : ∀ l t, (right n a b).target .start l = some t → AppendEdge n a b s l t)
    (hw : w ∈ (right n a b).spelled) : (append n a b).automaton.Path .fin s w := by
  cases hw with
  | step hstep rest =>
      exact .step ((target_append ha hb hwa hwb).mpr (h _ _ hstep))
        (path_append_right ha hb hwa hwb ((right_wellFormed hb).ne_start hstep) rest)

/-- A path in the first table, with the end moved, is a path of the result. It leads to
the join at most, where the second table has to be begun. -/
theorem path_append_left (ha : a.WellFormed) (hb : b.WellFormed) (hwa : a.Within n)
    (hwb : b.Within n) (p : (left n a b).Path goal s w) :
    (append n a b).automaton.Path goal s w :=
  p.mono fun _ _ _ h => (target_append ha hb hwa hwb).mpr (.left h)

/-- A path that moves ends with an edge that enters the goal. -/
theorem Path.exists_last (p : a.Path goal s w) (hs : s ≠ goal) :
    ∃ r l, a.target r l = some goal := by
  induction p with
  | refl => exact absurd rfl hs
  | @step s r l w h _ ih =>
      by_cases hr : r = goal
      · rw [hr] at h
        exact ⟨s, l, h⟩
      · exact ih hr

/-- An edge that enters the join shows that some edge does, so the join is opened. -/
theorem entersJoin_of_target (h : (left n a b).target s l = some (join n a b)) :
    entersJoin n a b = true := by
  unfold entersJoin
  rw [List.any_eq_true]
  exact ⟨⟨s, l, join n a b⟩, (mem_edges_iff _ _).mpr h, decide_eq_true rfl⟩

/-- A word of the first table and then one of the second **is spelled**, if no edge is
lost at `start`. Edges that are lost at a feeder do no harm here, since the path may go
on to the join and find them there. -/
theorem mul_spelled_le_append (ha : a.WellFormed) (hb : b.WellFormed) (hwa : a.Within n)
    (hwb : b.Within n) (hfree : OpensFreely n a b) :
    a.spelled * b.spelled ≤ (append n a b).automaton.spelled := by
  rintro w ⟨u, hu, v, hv, rfl⟩
  rw [← spelled_apart n a b] at hv
  -- the word of the first table is empty, or the path for it comes to the join
  rcases path_start_moveEnd (q := join n a b) ha hu with ⟨rfl, heps⟩ | hleft
  · have hnull : (a.epsilon .start).isSome = true := by rw [heps, Option.isSome_some]
    exact path_append_opening ha hb hwa hwb
      (fun l t ht => .opened hnull (hfree hnull l t ht) ht) hv
  · obtain ⟨r, l, hr⟩ := hleft.exists_last join_ne_start.symm
    have hjoin := path_append_opening ha hb hwa hwb
      (fun l t ht => .joined (entersJoin_of_target hr) ht) hv
    exact (path_append_left ha hb hwa hwb hleft).append hjoin

/-! ## Lost edges -/

/-- The edges that open the second table find their place at the feeders. -/
def FeedsFreely (n : Nat) (a b : Automaton) : Prop :=
  ∀ s ∈ feeders n a b, ∀ x t, (right n a b).target .start (.token x) = some t →
    (left n a b).target s (.token x) = none

/-- An edge of the first table never enters what an edge of the second enters. So an
edge in a place that another one wants is always a real clash, and never the same
edge twice. -/
theorem left_ne_right (hwa : a.Within n) (hwb : b.Within n) (hb : b.WellFormed)
    (h : (left n a b).target s l = some t) : (right n a b).target r l ≠ some t := by
  intro hr
  have hmem := target_mem_states hr
  rcases target_mem_of_moveEnd h with rfl | ⟨hmem', hfin⟩
  · exact join_notMem_right hwb hmem
  · cases t with
    | start => exact (right_wellFormed hb).ne_start hr rfl
    | fin => exact hfin rfl
    | id k => exact apart_disjoint a b hwa hmem' hmem

section Collisions

variable (hb : b.WellFormed) (hwa : a.Within n) (hwb : b.Within n)
include hb hwa hwb

/-- No edge is lost at the feeders exactly if none of them has an edge of its own for a
token that opens the second table. -/
theorem fed_collisions_eq_nil_iff :
    ((left n a b).insertAllKeeping (fedEdges n a b)).2 = [] ↔ FeedsFreely n a b := by
  rw [insertAllKeeping_collisions agree_fedEdges]
  constructor
  · intro h s hs x t ht
    have hedge := (mem_fedEdges_iff ⟨s, .token x, t⟩).mpr ⟨hs, by simp, ht⟩
    rcases h _ hedge with hnone | hsome
    · exact hnone
    · exact absurd ht (left_ne_right hwa hwb hb hsome)
  · intro h e he
    obtain ⟨hs, hl, ht⟩ := (mem_fedEdges_iff e).mp he
    obtain ⟨s, l, t⟩ := e
    cases l with
    | epsilon => exact absurd rfl hl
    | token x => exact .inl (h s hs x t ht)

variable (ha : a.WellFormed)
include ha

/-- No edge is lost at `start` exactly if it has none of its own in such a place, or is
not opened at all. -/
theorem opened_collisions_eq_nil_iff : (opened n a b).2 = [] ↔ OpensFreely n a b := by
  unfold opened OpensFreely
  by_cases hnull : (a.epsilon .start).isSome = true
  · rw [if_pos hnull, insertAllKeeping_collisions (agree_edgesAt _ _ _)]
    constructor
    · intro h _ l t ht
      have hedge := (mem_edgesAt_leaving_iff (right n a b) .start .start ⟨.start, l, t⟩).mpr
        ⟨rfl, ht⟩
      have hplace := h _ hedge
      rw [target_joined_start ha hb hwa hwb] at hplace
      rcases hplace with hnone | hsome
      · exact hnone
      · exact absurd ht (left_ne_right hwa hwb hb hsome)
    · rintro h ⟨s, l, t⟩ he
      obtain ⟨rfl, ht⟩ := (mem_edgesAt_leaving_iff _ _ _ _).mp he
      left
      rw [target_joined_start ha hb hwa hwb]
      exact h hnull l t ht
  · rw [if_neg hnull]
    exact ⟨fun _ h => absurd h hnull, fun _ => rfl⟩

end Collisions

/-- No edge is lost **exactly when each finds its place**, at the feeders and at
`start`. The conditions are about the two tables only, and not about the order in which
the stages put edges in. -/
theorem append_collisions (ha : a.WellFormed) (hb : b.WellFormed) (hwa : a.Within n)
    (hwb : b.Within n) :
    (append n a b).collisions = [] ↔ FeedsFreely n a b ∧ OpensFreely n a b := by
  rw [append_eq, List.append_eq_nil_iff, fed_collisions_eq_nil_iff hb hwa hwb,
    opened_collisions_eq_nil_iff hb hwa hwb ha]

/-- Without a loss at `start`, one table after another **spells the product**. It is the
second half of `append_collisions` that is used; the first is needed for acceptance. -/
theorem spelled_append (ha : a.WellFormed) (hb : b.WellFormed) (hwa : a.Within n)
    (hwb : b.Within n) (h : (append n a b).collisions = []) :
    (append n a b).automaton.spelled = a.spelled * b.spelled :=
  le_antisymm (spelled_append_le ha hb hwa hwb)
    (mul_spelled_le_append ha hb hwa hwb ((append_collisions ha hb hwa hwb).mp h).2)

/-- The result may be empty **exactly when both tables may be**. What is lost elsewhere
has no say in this. -/
theorem epsilon_start_append (ha : a.WellFormed) (hb : b.WellFormed) (hwa : a.Within n)
    (hwb : b.Within n) : ((append n a b).automaton.epsilon .start).isSome = true ↔
      (a.epsilon .start).isSome = true ∧ (b.epsilon .start).isSome = true := by
  rw [← hb.nil_mem_spelled, ← spelled_apart n a b, (hb.apart n a).nil_mem_spelled,
    Option.isSome_iff_exists]
  constructor
  · rintro ⟨t, ht⟩
    rcases (target_append ha hb hwa hwb).mp ht with h | _ | ⟨hs, -⟩ | _ | ⟨hnull, -, h⟩
    · exact absurd ⟨rfl, rfl⟩ (target_moveEnd.mp h).1
    · exact absurd rfl hs
    · exact ⟨hnull, Option.isSome_iff_exists.mpr ⟨t, h⟩⟩
  · rintro ⟨hnull, hright⟩
    obtain ⟨t, ht⟩ := Option.isSome_iff_exists.mp hright
    exact ⟨t, (target_append ha hb hwa hwb).mpr
      (.opened hnull (epsilon_start_moveEnd a (join n a b)) ht)⟩

end TreeGrammar.Automaton
