/-
One table after another.

`append` puts its table together in four stages; the names of the stages are in the
namespace `Appending`. Its edges are of five kinds, `AppendEdge`, and `target_append`
says that there are no others and that the kinds do not get in each other's way. That
the rules are kept, `WellFormed.append`, follows from the kinds alone; what the table
spells is in `TreeGrammar.Proofs.Automaton.AppendWords`.
-/
import TreeGrammar.Proofs.Automaton.Ending

set_option autoImplicit false

namespace TreeGrammar.Automaton

namespace Appending

/-! ## The stages -/

/-- The second table, apart from the first. -/
def right (n : Nat) (a b : Automaton) : Automaton := (apart n a b).automaton

/-- The state between the two tables. -/
def join (n : Nat) (a b : Automaton) : State := .id ((apart n a b).drawn + 1)

/-- The first table, ending at the join. -/
def left (n : Nat) (a b : Automaton) : Automaton := a.moveEnd (join n a b)

/-- The states of the first table that pass to the join. -/
def feeders (n : Nat) (a b : Automaton) : List State :=
  (left n a b).states.filter fun s =>
    decide (s ≠ join n a b) && (left n a b).epsilonReaches s (join n a b)

/-- The edges that open the second table, given to the feeders. -/
def fedEdges (n : Nat) (a b : Automaton) : List Edge :=
  (feeders n a b).flatMap fun s =>
    edgesAt s (((right n a b).leaving .start).filter fun p => decide (p.1 ≠ .epsilon))

/-- The edges of the second table that do not open it. -/
def bodyEdges (n : Nat) (a b : Automaton) : List Edge :=
  (right n a b).edges.filter fun e => decide (e.source ≠ .start)

/-- Whether an edge enters the join. -/
def entersJoin (n : Nat) (a b : Automaton) : Bool :=
  (left n a b).edges.any fun e => decide (e.target = join n a b)

/-- The table before `start` is opened a second time. -/
def joined (n : Nat) (a b : Automaton) : Automaton :=
  let body := ((left n a b).insertAllKeeping (fedEdges n a b)).1.insertAll (bodyEdges n a b)
  if entersJoin n a b then
    body.insertAll (edgesAt (join n a b) ((right n a b).leaving .start))
  else body

/-- The table with `start` opened a second time, if the first table may be empty. -/
def opened (n : Nat) (a b : Automaton) : Automaton × List Collision :=
  if (a.epsilon .start).isSome then
    (joined n a b).insertAllKeeping (edgesAt .start ((right n a b).leaving .start))
  else (joined n a b, [])

/-- The table, the last number drawn and the lost edges, in terms of the stages. Edges
can be lost in two of them: at the feeders and at `start`. -/
theorem append_eq (n : Nat) (a b : Automaton) : append n a b =
    ⟨(opened n a b).1, (apart n a b).drawn + 1,
      ((left n a b).insertAllKeeping (fedEdges n a b)).2 ++ (opened n a b).2⟩ := rfl

end Appending

open Appending

/-- The **five kinds of edges** of one table after another. -/
inductive AppendEdge (n : Nat) (a b : Automaton) : State → Label → State → Prop
  /-- An edge of the first table. -/
  | left {s t : State} {l : Label} (h : (left n a b).target s l = some t) : AppendEdge n a b s l t
  /-- An edge that opens the second table, given to a feeder. -/
  | fed {s t : State} {x : Token} (hs : s ∈ feeders n a b)
      (hnone : (left n a b).target s (.token x) = none)
      (h : (right n a b).target .start (.token x) = some t) : AppendEdge n a b s (.token x) t
  /-- An edge of the second table. -/
  | right {s t : State} {l : Label} (hs : s ≠ .start) (h : (right n a b).target s l = some t) :
      AppendEdge n a b s l t
  /-- An edge that opens the second table, given to the join. -/
  | joined {t : State} {l : Label} (hjoin : entersJoin n a b = true)
      (h : (right n a b).target .start l = some t) : AppendEdge n a b (join n a b) l t
  /-- An edge that opens the second table, given to `start`. -/
  | opened {t : State} {l : Label} (hnull : (a.epsilon .start).isSome = true)
      (hnone : (left n a b).target .start l = none)
      (h : (right n a b).target .start l = some t) : AppendEdge n a b .start l t

variable {n : Nat} {a b : Automaton} {s r t : State} {l : Label} {x : Token} {w : List Token}

/-! ## Who is who -/

/-- The join is none of the states of the first table, whose numbers were all
drawn before. -/
theorem join_notMem_left (ha : a.Within n) : join n a b ∉ a.states :=
  ha.notMem (Nat.lt_succ_of_le (le_drawn_apart n a b))

/-- Nor is it one of the second table, which may be a copy on numbers that have just
been drawn. -/
theorem join_notMem_right (hb : b.Within n) : join n a b ∉ (right n a b).states :=
  (within_apart a hb).notMem (Nat.lt_succ_self _)

theorem join_ne_start : join n a b ≠ .start := State.noConfusion

theorem join_ne_fin : join n a b ≠ .fin := State.noConfusion

/-- The second table keeps the rules, copied or not. -/
theorem right_wellFormed (hb : b.WellFormed) : (right n a b).WellFormed := hb.apart n a

/-- A state of the second table with edges that do not open it is **not a state of
the first**. -/
theorem notMem_left_of_right (ha : a.Within n) (hb : b.WellFormed) (hs : s ≠ .start)
    (h : (right n a b).target s l = some t) : s ∉ a.states := by
  intro hmem
  cases s with
  | start => exact hs rfl
  | fin => exact (right_wellFormed hb).ne_fin h rfl
  | id k => exact apart_disjoint a b ha hmem (source_mem_states h)

/-- The feeders are the states of the first table that pass to its end by epsilon edges.
Moving the end has taken the epsilon edge of `start` away, so `start` is none of them;
what it has to hand over is dealt with in the last stage. -/
theorem mem_feeders_iff (ha : a.WellFormed) (hwa : a.Within n) : s ∈ feeders n a b ↔
    s ≠ .start ∧ s ≠ .fin ∧ a.Passes s .fin := by
  have hjoin := join_notMem_left (b := b) hwa
  unfold feeders
  rw [List.mem_filter, Bool.and_eq_true, decide_eq_true_iff, epsilonReaches_iff]
  constructor
  · -- moving the end took the epsilon edge of `start` away, so `start` feeds nothing
    rintro ⟨-, hne, r, hr, hp⟩
    have hstart : s ≠ .start := by
      rintro rfl
      have hnone := epsilon_start_moveEnd a (join n a b)
      exact absurd (hr.symm.trans hnone) (by simp)
    have hpasses := passes_fin_of_moveEnd hjoin hne (hp.head hr)
    refine ⟨hstart, ?_, hpasses⟩
    rintro rfl
    obtain ⟨-, t₀, ht₀, -⟩ := target_moveEnd.mp hr
    exact ha.ne_fin ht₀ rfl
  · rintro ⟨hstart, hfin, hp⟩
    have hleft : (left n a b).Passes s (join n a b) := passes_moveEnd ha hstart hfin hp
    have hne : s ≠ join n a b := by
      rintro rfl
      exact hjoin (mem_of_passes_fin hfin hp)
    rcases passes_iff.mp hleft with heq | ⟨r, hr, hrest⟩
    · exact absurd heq hne
    · exact ⟨source_mem_states hr, hne, r, hr, hrest⟩

theorem feeder_mem_left (ha : a.WellFormed) (hwa : a.Within n) (h : s ∈ feeders n a b) :
    s ∈ a.states := by
  obtain ⟨-, hfin, hp⟩ := (mem_feeders_iff ha hwa).mp h
  exact mem_of_passes_fin hfin hp

/-! ## The edges -/

/-- The edges that are given to the feeders: each of those that open the second table,
at each feeder. The epsilon edge is not given, since it would make the end of the first
table an end of the whole. -/
theorem mem_fedEdges_iff (e : Edge) : e ∈ fedEdges n a b ↔
    e.source ∈ feeders n a b ∧ e.label ≠ .epsilon ∧
      (right n a b).target .start e.label = some e.target := by
  unfold fedEdges
  rw [List.mem_flatMap]
  constructor
  · rintro ⟨s, hs, he⟩
    rw [mem_edgesAt_iff, List.mem_filter, mem_leaving_iff, decide_eq_true_iff] at he
    obtain ⟨rfl, htarget, hlabel⟩ := he
    exact ⟨hs, hlabel, htarget⟩
  · rintro ⟨hs, hlabel, htarget⟩
    refine ⟨e.source, hs, ?_⟩
    rw [mem_edgesAt_iff, List.mem_filter, mem_leaving_iff, decide_eq_true_iff]
    exact ⟨rfl, htarget, hlabel⟩

/-- What the second table contributes by itself is all but the edges that open it. -/
theorem mem_bodyEdges_iff (e : Edge) : e ∈ bodyEdges n a b ↔
    e.source ≠ .start ∧ (right n a b).target e.source e.label = some e.target := by
  unfold bodyEdges
  rw [List.mem_filter, mem_edges_iff, decide_eq_true_iff, and_comm]

/-- No two edges given to the feeders have one place and two targets, so **the order
they come in does not matter** among themselves. -/
theorem agree_fedEdges : Edge.Agree (fedEdges n a b) :=
  Edge.agree_of_eq_some (fun _ l => (right n a b).target .start l)
    fun e he => ((mem_fedEdges_iff e).mp he).2.2

theorem agree_bodyEdges : Edge.Agree (bodyEdges n a b) :=
  Edge.agree_of_eq_some (right n a b).target fun e he => ((mem_bodyEdges_iff e).mp he).2

theorem agree_edgesAt (a : Automaton) (s r : State) : Edge.Agree (edgesAt s (a.leaving r)) :=
  Edge.agree_of_eq_some (fun _ l => a.target r l)
    fun e he => ((mem_edgesAt_leaving_iff a s r e).mp he).2

section Edges

variable (ha : a.WellFormed) (hb : b.WellFormed) (hwa : a.Within n)
include ha hb hwa

/-- The edges before the join is opened. What the second table puts in replaces nothing:
the sources are in different tables. -/
theorem target_body (s : State) (l : Label) (t : State) :
    (((left n a b).insertAllKeeping (fedEdges n a b)).1.insertAll (bodyEdges n a b)).target s l =
      some t ↔ (left n a b).target s l = some t ∨
        (s ∈ feeders n a b ∧ (left n a b).target s l = none ∧ l ≠ .epsilon ∧
          (right n a b).target .start l = some t) ∨
        (s ≠ .start ∧ (right n a b).target s l = some t) := by
  rw [target_insertAll agree_bodyEdges, target_insertAllKeeping agree_fedEdges, mem_bodyEdges_iff,
    mem_fedEdges_iff]
  simp only [mem_bodyEdges_iff]
  -- the list that is put in last is looked at first, so each kind has to be free of the
  -- later ones
  constructor
  · rintro (hright | ⟨-, hleft | ⟨hnone, hfed⟩⟩)
    · exact .inr (.inr hright)
    · exact .inl hleft
    · exact .inr (.inl ⟨hfed.1, hnone, hfed.2⟩)
  · rintro (hleft | ⟨hfeed, hnone, hl, ht⟩ | hright)
    · refine .inr ⟨fun t' ht' => ?_, .inl hleft⟩
      exact notMem_left_of_right hwa hb ht'.1 ht'.2 (source_mem_of_moveEnd hleft)
    · refine .inr ⟨fun t' ht' => ?_, .inr ⟨hnone, hfeed, hl, ht⟩⟩
      exact notMem_left_of_right hwa hb ht'.1 ht'.2 (feeder_mem_left ha hwa hfeed)
    · exact .inl hright

variable (hwb : b.Within n)
include hwb

/-- Before it is opened, the join has no edges. It is neither a state of the first table
nor of the second, so opening it can replace nothing. -/
theorem target_body_join (l : Label) (t : State) :
    (((left n a b).insertAllKeeping (fedEdges n a b)).1.insertAll (bodyEdges n a b)).target
      (join n a b) l ≠ some t := by
  rw [Ne, target_body ha hb hwa]
  rintro (hleft | ⟨hfeed, -⟩ | ⟨-, hright⟩)
  · exact join_notMem_left hwa (source_mem_of_moveEnd hleft)
  · exact join_notMem_left hwa (feeder_mem_left ha hwa hfeed)
  · exact join_notMem_right hwb (source_mem_states hright)

/-- The edges before `start` is opened a second time. They are of four kinds, and no
edge of one kind stands in the place of another: the sources are different, or the place
was found free. -/
theorem target_joined : (joined n a b).target s l = some t ↔
      (left n a b).target s l = some t ∨
      (s ∈ feeders n a b ∧ (left n a b).target s l = none ∧ l ≠ .epsilon ∧
        (right n a b).target .start l = some t) ∨
      (s ≠ .start ∧ (right n a b).target s l = some t) ∨
      (s = join n a b ∧ entersJoin n a b = true ∧ (right n a b).target .start l = some t) := by
  have hbody := target_body ha hb hwa s l t
  have hjoin := target_body_join ha hb hwa hwb l t
  rw [← or_assoc, ← or_assoc, or_assoc (a := (left n a b).target s l = some t), ← hbody]
  unfold joined
  -- only a join that is entered has edges put in, and none was there before
  by_cases hen : entersJoin n a b = true
  · rw [if_pos hen, target_insertAll (agree_edgesAt _ _ _)]
    simp only [mem_edgesAt_leaving_iff]
    constructor
    · rintro (⟨hs, ht⟩ | ⟨-, hold⟩)
      · exact .inr ⟨hs, hen, ht⟩
      · exact .inl hold
    · rintro (hold | ⟨hs, -, ht⟩)
      · refine .inr ⟨fun t' ht' => ?_, hold⟩
        rw [ht'.1] at hold
        exact hjoin hold
      · exact .inl ⟨hs, ht⟩
  · rw [if_neg hen]
    constructor
    · exact .inl
    · rintro (hold | ⟨-, hcontra, -⟩)
      · exact hold
      · exact absurd hcontra hen

/-- At `start` the earlier stages have put in **edges of the first table only**. So an
edge that is lost when `start` is opened a second time is lost to the first table, and a
warning can say so. -/
theorem target_joined_start (l : Label) :
    (joined n a b).target .start l = (left n a b).target .start l := by
  apply Option.ext
  intro t
  rw [target_joined ha hb hwa hwb]
  constructor
  · rintro (h | ⟨hfeed, -⟩ | ⟨hs, -⟩ | ⟨hs, -⟩)
    · exact h
    · exact absurd rfl ((mem_feeders_iff ha hwa).mp hfeed).1
    · exact absurd rfl hs
    · exact absurd hs.symm join_ne_start
  · exact .inl

/-- An edge is of one of the five kinds if it is there before `start` is opened,
or opens it. The five kinds are the four of the stages before, and the one of the
last stage. -/
theorem appendEdge_iff : AppendEdge n a b s l t ↔ (joined n a b).target s l = some t ∨
    (s = .start ∧ (a.epsilon .start).isSome = true ∧ (left n a b).target .start l = none ∧
      (right n a b).target .start l = some t) := by
  rw [target_joined ha hb hwa hwb]
  constructor
  · rintro (hleft | ⟨hfeed, hnone, ht⟩ | ⟨hs, hright⟩ | ⟨hen, ht⟩ | ⟨hnull, hnone, ht⟩)
    · exact .inl (.inl hleft)
    · exact .inl (.inr (.inl ⟨hfeed, hnone, by simp, ht⟩))
    · exact .inl (.inr (.inr (.inl ⟨hs, hright⟩)))
    · exact .inl (.inr (.inr (.inr ⟨rfl, hen, ht⟩)))
    · exact .inr ⟨rfl, hnull, hnone, ht⟩
  · rintro ((hleft | ⟨hfeed, hnone, hl, ht⟩ | ⟨hs, hright⟩ | ⟨rfl, hen, ht⟩) | ⟨rfl,
      hnull, hnone, ht⟩)
    · exact .left hleft
    · cases l with
      | epsilon => exact absurd rfl hl
      | token x => exact .fed hfeed hnone ht
    · exact .right hs hright
    · exact .joined hen ht
    · exact .opened hnull hnone ht

/-- The edges of one table after another are those of the five kinds, **and all of
them**. Everything else about one table after another is proved from this, kind by kind,
and never looks at the stages again. -/
theorem target_append : (append n a b).automaton.target s l = some t ↔ AppendEdge n a b s l t := by
  have hstart := target_joined_start ha hb hwa hwb l
  rw [appendEdge_iff ha hb hwa hwb, append_eq]
  show (opened n a b).1.target s l = some t ↔ _
  unfold opened
  by_cases hnull : (a.epsilon .start).isSome = true
  · rw [if_pos hnull, target_insertAllKeeping (agree_edgesAt _ _ _), mem_edgesAt_leaving_iff]
    constructor
    · rintro (h | ⟨hnone, rfl, ht⟩)
      · exact .inl h
      · exact .inr ⟨rfl, hnull, hstart.symm.trans hnone, ht⟩
    · rintro (h | ⟨rfl, -, hnone, ht⟩)
      · exact .inl h
      · exact .inr ⟨hstart.trans hnone, rfl, ht⟩
  · rw [if_neg hnull]
    constructor
    · exact .inl
    · rintro (h | ⟨-, hcontra, -⟩)
      · exact h
      · exact absurd hcontra hnull

end Edges

/-! ## The rules -/

theorem drawn_append (n : Nat) (a b : Automaton) :
    (append n a b).drawn = (apart n a b).drawn + 1 := rfl

theorem lt_drawn_append (n : Nat) (a b : Automaton) : n < (append n a b).drawn :=
  Nat.lt_succ_of_le (le_drawn_apart n a b)

/-- The result is within the number that was drawn last, so the next operator may count
from there. -/
theorem within_append (ha : a.WellFormed) (hb : b.WellFormed) (hwa : a.Within n)
    (hwb : b.Within n) : (append n a b).automaton.Within (append n a b).drawn := by
  have hleft : ∀ k, State.id k ∈ a.states → k ≤ (append n a b).drawn := by
    intro k hk
    have hn := lt_drawn_append n a b
    have hk := hwa k hk
    omega
  have hright : ∀ k, State.id k ∈ (right n a b).states → k ≤ (append n a b).drawn := by
    intro k hk
    exact Nat.le_succ_of_le (within_apart a hwb k hk)
  have hjoin : ∀ k, join n a b = .id k → k ≤ (append n a b).drawn := by
    intro k hk
    rw [join, State.id.injEq] at hk
    rw [drawn_append]
    omega
  -- kind by kind, both ends of the edge
  refine Within.of_edges fun s l t h => ?_
  rcases (target_append ha hb hwa hwb).mp h with h | ⟨hs, -, h⟩ | ⟨-, h⟩ | ⟨-, h⟩ | ⟨-, -, h⟩
  · refine ⟨?_, ?_⟩
    · rintro k rfl
      exact hleft k (source_mem_of_moveEnd h)
    · rintro k rfl
      rcases target_mem_of_moveEnd h with heq | ⟨hmem, -⟩
      · exact hjoin k heq.symm
      · exact hleft k hmem
  · refine ⟨?_, ?_⟩
    · rintro k rfl
      exact hleft k (feeder_mem_left ha hwa hs)
    · rintro k rfl
      exact hright k (target_mem_states h)
  · refine ⟨?_, ?_⟩
    · rintro k rfl
      exact hright k (source_mem_states h)
    · rintro k rfl
      exact hright k (target_mem_states h)
  · refine ⟨hjoin, ?_⟩
    rintro k rfl
    exact hright k (target_mem_states h)
  · refine ⟨fun k hk => absurd hk (by simp), ?_⟩
    rintro k rfl
    exact hright k (target_mem_states h)

/-- The edges that leave a state of the second table, other than `start`, are **those of
the second table**. So what is reached in the second table goes on as if there had been
no first. -/
theorem target_append_right (ha : a.WellFormed) (hb : b.WellFormed) (hwa : a.Within n)
    (hwb : b.Within n) (hs : s ≠ .start) (hmem : s ∈ (right n a b).states)
    (h : (append n a b).automaton.target s l = some t) : (right n a b).target s l = some t := by
  -- the tables share no number, so a state of both is a shared one
  have hnum : s ∈ a.states → s = .fin := by
    intro hsa
    cases s with
    | start => exact absurd rfl hs
    | fin => rfl
    | id k => exact absurd hmem (apart_disjoint a b hwa hsa)
  rcases (target_append ha hb hwa hwb).mp h with h | ⟨hf, -, -⟩ | ⟨-, h⟩ | ⟨-, -⟩ | ⟨-, -, -⟩
  · obtain ⟨-, t₀, ht₀, -⟩ := target_moveEnd.mp h
    exact absurd (hnum (source_mem_of_moveEnd h)) (ha.ne_fin ht₀)
  · exact absurd (hnum (feeder_mem_left ha hwa hf)) ((mem_feeders_iff ha hwa).mp hf).2.1
  · exact h
  · exact absurd hmem (join_notMem_right hwb)
  · exact absurd rfl hs

section Chains

variable (ha : a.WellFormed) (hb : b.WellFormed) (hwa : a.Within n) (hwb : b.Within n)
include ha hb hwa hwb

/-- A chain that has come to the second table comes to an end there. By then the edges
are those of the second table, whose chains end. -/
theorem halts_append_right (hs : s ≠ .start) (hmem : s ∈ (right n a b).states) :
    (append n a b).automaton.Halts s := by
  have hbr : (right n a b).WellFormed := right_wellFormed hb
  induction hbr.halts s with
  | intro s _ ih =>
      refine Acc.intro s fun r hr => ?_
      have hr' := target_append_right ha hb hwa hwb hs hmem hr
      exact ih r hr' (hbr.ne_start hr') (target_mem_states hr')

/-- What opens the second table comes to an end. An epsilon edge of that kind enters a
state of the second table. -/
theorem halts_append_opening (h : (right n a b).epsilon .start = some r) :
    (append n a b).automaton.Halts r :=
  halts_append_right ha hb hwa hwb ((right_wellFormed hb).ne_start h) (target_mem_states h)

/-- The chain of the join comes to an end: what leaves the join opens the
second table. -/
theorem halts_append_join : (append n a b).automaton.Halts (join n a b) := by
  refine Acc.intro _ fun r hr => ?_
  rcases (target_append ha hb hwa hwb).mp hr with h | _ | ⟨-, h⟩ | ⟨-, h⟩
  · exact absurd (source_mem_of_moveEnd h) (join_notMem_left hwa)
  · exact absurd (source_mem_states h) (join_notMem_right hwb)
  · exact halts_append_opening ha hb hwa hwb h

end Chains

/-- One table after another **keeps the rules**. Nothing enters `start`, since the
second table is entered behind its own; `fin` is left by nothing, and every chain comes
to the join or stays in one of the tables. -/
theorem WellFormed.append (ha : a.WellFormed) (hb : b.WellFormed) (hwa : a.Within n)
    (hwb : b.Within n) : (Automaton.append n a b).automaton.WellFormed := by
  have hbr : (right n a b).WellFormed := right_wellFormed hb
  refine ⟨?_, ?_, ?_, ?_⟩
  · -- an edge of the first table enters what it entered before, or the join
    intro s l h
    rcases (target_append ha hb hwa hwb).mp h with h | ⟨-, -, h⟩ | ⟨-, h⟩ | ⟨-, h⟩ | ⟨-, -, h⟩
    · obtain ⟨-, t₀, ht₀, heq⟩ := target_moveEnd.mp h
      by_cases hfin : t₀ = .fin
      · rw [if_pos hfin] at heq
        exact join_ne_start heq.symm
      · rw [if_neg hfin] at heq
        exact ha.ne_start ht₀ heq.symm
    all_goals exact hbr.ne_start h rfl
  · -- whatever leaves `fin` leaves it in the second table
    intro l
    rw [Option.eq_none_iff_forall_ne_some]
    intro t h
    have hright := target_append_right ha hb hwa hwb (by simp) (fin_mem_states _) h
    exact hbr.ne_fin hright rfl
  · -- the epsilon edge of the first table is gone, so there is that of the second at most
    intro t h
    rcases (target_append ha hb hwa hwb).mp h with h | _ | ⟨hs, -⟩ | _ | ⟨-, -, h⟩
    · exact absurd ⟨rfl, rfl⟩ (target_moveEnd.mp h).1
    · exact absurd rfl hs
    · exact hbr.epsilon_start t h
  · -- along the chain of the first table, until an edge enters the second one or the join
    intro s
    induction ha.halts s with
    | intro s _ ih =>
        refine Acc.intro s fun r hr => ?_
        rcases (target_append ha hb hwa hwb).mp hr with h | _ | ⟨-, h⟩ | ⟨-, h⟩ | ⟨-, -, h⟩
        · obtain ⟨-, t₀, ht₀, rfl⟩ := target_moveEnd.mp h
          by_cases hfin : t₀ = .fin
          · rw [if_pos hfin]
            exact halts_append_join ha hb hwa hwb
          · rw [if_neg hfin]
            exact ih t₀ ht₀
        · exact halts_append_right ha hb hwa hwb (hbr.ne_start h) (target_mem_states h)
        all_goals exact halts_append_opening ha hb hwa hwb h

end TreeGrammar.Automaton
