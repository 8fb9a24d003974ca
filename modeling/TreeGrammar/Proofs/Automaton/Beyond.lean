/-
Tables on numbers that are new.

`Within` bounds the numbers of a table from above, and `Beyond` from below: a table that
is made after `n` numbers have been drawn uses none of them. An operator puts in no edge
but between states of its operands, the copy of the second one among them, and a state
that it draws itself; so tables that are beyond `n` make one that is.
-/
import TreeGrammar.Proofs.Automaton.Append
import TreeGrammar.Proofs.Automaton.Merge
import TreeGrammar.Proofs.Automaton.Repeat

set_option autoImplicit false

namespace TreeGrammar

/-- The state is shared, or its number comes **after** `n`. -/
def State.Beyond (n : Nat) (s : State) : Prop := ∀ k, s = .id k → n < k

namespace State

variable {n m : Nat}

/-- The state `start` has no number, so it is beyond every bound. -/
theorem beyond_start : start.Beyond n := fun _ h => State.noConfusion h

/-- Nor has `fin` a number; tables on quite different numbers share these two. -/
theorem beyond_fin : fin.Beyond n := fun _ h => State.noConfusion h

/-- A numbered state is beyond a bound that its number exceeds. -/
theorem beyond_id {k : Nat} (h : n < k) : (id k).Beyond n := by
  intro k' hk'
  rwa [← State.id.inj hk']

end State

namespace Automaton

/-- Every numbered state of the table has a number **after** `n`. -/
def Beyond (n : Nat) (a : Automaton) : Prop := ∀ s ∈ a.states, s.Beyond n

variable {n m : Nat} {a b c : Automaton} {s t : State} {l : Label} {es : List Edge}

namespace Beyond

/-- What lies beyond a number lies beyond every lower one, so a table stays beyond the
mark that was noted before it was made. -/
theorem mono (h : a.Beyond m) (hnm : n ≤ m) : a.Beyond n :=
  fun s hs k hk => Nat.lt_of_le_of_lt hnm (h s hs k hk)

/-- It is enough to look at both ends of every edge. A state without edges is not among
the states of a table, unless it is `start` or `fin`. -/
theorem of_edges (h : ∀ s l t, a.target s l = some t → s.Beyond n ∧ t.Beyond n) : a.Beyond n := by
  intro s hs
  rcases (a.mem_states_iff s).mp hs with rfl | rfl | ⟨l, t, hst⟩ | ⟨r, l, hst⟩
  · exact State.beyond_start
  · exact State.beyond_fin
  · exact (h s l t hst).1
  · exact (h r l s hst).2

/-- Each edge leaves a state beyond the bound, since both of its ends are states
of the table. -/
theorem source (h : a.Beyond n) (hst : a.target s l = some t) : s.Beyond n :=
  h s (source_mem_states hst)

theorem target (h : a.Beyond n) (hst : a.target s l = some t) : t.Beyond n :=
  h t (target_mem_states hst)

theorem blank : blank.Beyond n := of_edges fun _ _ _ h => absurd h (by simp)

/-! ## Edges put in and taken out -/

/-- An edge between states beyond the bound may be put in, whatever it replaces. -/
theorem insert (h : a.Beyond n) (hs : s.Beyond n) (ht : t.Beyond n) :
    (a.insert s l t).Beyond n := by
  refine of_edges fun s' l' t' htarget => ?_
  rw [target_insert] at htarget
  split at htarget
  · next hkey =>
      rw [← hkey.1, ← Option.some.inj htarget]
      exact ⟨hs, ht⟩
  · exact ⟨h.source htarget, h.target htarget⟩

theorem insertAll (h : a.Beyond n) (hes : ∀ e ∈ es, e.source.Beyond n ∧ e.target.Beyond n) :
    (a.insertAll es).Beyond n := by
  refine of_edges fun s l t htarget => ?_
  rcases mem_of_target_insertAll htarget with hmem | hold
  · exact hes _ hmem
  · exact ⟨h.source hold, h.target hold⟩

/-- So may a list whose edges give way to those that are there; what is lost cannot do
harm either. -/
theorem insertAllKeeping (h : a.Beyond n) (hagree : Edge.Agree es)
    (hes : ∀ e ∈ es, e.source.Beyond n ∧ e.target.Beyond n) :
    (a.insertAllKeeping es).1.Beyond n := by
  refine of_edges fun s l t htarget => ?_
  rcases (target_insertAllKeeping hagree a s t l).mp htarget with hold | ⟨-, hmem⟩
  · exact ⟨h.source hold, h.target hold⟩
  · exact hes _ hmem

/-- What entered `fin` enters the new end, so that **the new end alone** has to lie
beyond the bound. -/
theorem moveEnd (h : a.Beyond n) (hs : s.Beyond n) : (a.moveEnd s).Beyond n := by
  refine of_edges fun r l t htarget => ?_
  refine ⟨h r (source_mem_of_moveEnd htarget), ?_⟩
  rcases target_mem_of_moveEnd htarget with rfl | ⟨ht, -⟩
  · exact hs
  · exact h t ht

/-- Both ends of each listed edge are beyond the bound. This is how a whole table is put
into another one. -/
theorem edges (h : a.Beyond n) : ∀ e ∈ a.edges, e.source.Beyond n ∧ e.target.Beyond n := by
  intro e he
  have htarget := (a.mem_edges_iff e).mp he
  exact ⟨h.source htarget, h.target htarget⟩

/-- The edges of a row, given to a state that is beyond `n` as well. The operators put a
row at a new state in two places, at the join and where rounds end. -/
theorem edgesAt (h : a.Beyond n) (hs : s.Beyond n) (r : State) :
    ∀ e ∈ edgesAt s (a.leaving r), e.source.Beyond n ∧ e.target.Beyond n := by
  intro e he
  obtain ⟨rfl, htarget⟩ := (mem_edgesAt_leaving_iff a s r e).mp he
  exact ⟨hs, h.target htarget⟩

/-! ## Operators -/

theorem emptyWord : emptyWord.Beyond n := blank.insert State.beyond_start State.beyond_fin

theorem single (x : Token) : (single x).Beyond n := blank.insert State.beyond_start State.beyond_fin

theorem optional (h : a.Beyond n) : a.optional.Beyond n :=
  h.insert State.beyond_start State.beyond_fin

/-- A copy is beyond the numbers drawn **before it**, whatever those of the table are.
This is what makes copying worth while: a table that was kept may have any numbers, its
copy has new ones. -/
theorem copy (a : Automaton) (n : Nat) : (a.copy n).automaton.Beyond n := by
  rintro s hs k rfl
  exact (mem_states_copy hs).1

/-- What is put beside the first table is beyond a number that was drawn no later: the
second table by itself, or a copy of it on numbers that are drawn now. -/
theorem apart (hb : b.Beyond n) (hnm : n ≤ m) (a : Automaton) :
    (Automaton.apart m a b).automaton.Beyond n :=
  apart_induction (motive := fun d => d.automaton.Beyond n) m a b hb ((copy b m).mono hnm)

/-- One table or the other is beyond a number that both tables are beyond. -/
theorem merge (ha : a.Beyond n) (hb : b.Beyond n) (hnm : n ≤ m) :
    (Automaton.merge m a b).automaton.Beyond n := by
  rw [merge_eq]
  exact ha.insertAllKeeping (agree_edges _) (hb.apart hnm a).edges

/-- The state where rounds end has the next number, so turning a table back upon itself
keeps it beyond what was drawn before. -/
theorem looped (h : a.Beyond n) (hnm : n ≤ m) : (looped m a).Beyond n := by
  have hagain : (again m).Beyond n := State.beyond_id (Nat.lt_succ_of_le hnm)
  have hmoved := h.moveEnd hagain
  exact (hmoved.insertAll (hmoved.edgesAt hagain .start)).insert hagain State.beyond_fin

/-- At least once keeps a table beyond the number, with the epsilon edge and
without it. -/
theorem plus (h : a.Beyond n) (hnm : n ≤ m) : (Automaton.plus m a).automaton.Beyond n :=
  plus_induction (motive := fun b => b.Beyond n) m a (fun _ => (h.looped hnm).optional)
    fun _ => h.looped hnm

/-- Any number of times is optional at least once, and no state comes in. -/
theorem kleene (h : a.Beyond n) (hnm : n ≤ m) : (Automaton.kleene m a).automaton.Beyond n := by
  rw [kleene_eq]
  exact (h.plus hnm).optional

section Append

open Appending

/-- One table after another is beyond a number that both are beyond: the join has a
number that is drawn after both, and every edge is of one of the five kinds. -/
theorem append (ha : a.Beyond n) (hb : b.Beyond n) (hnm : n ≤ m) :
    (Automaton.append m a b).automaton.Beyond n := by
  have hjoin : (join m a b).Beyond n := State.beyond_id (by have hle := le_drawn_apart m a b; omega)
  have hright : (right m a b).Beyond n := hb.apart hnm a
  have hleft : (left m a b).Beyond n := ha.moveEnd hjoin
  have hfed : ∀ e ∈ fedEdges m a b, e.source.Beyond n ∧ e.target.Beyond n := by
    intro e he
    obtain ⟨hs, -, ht⟩ := (mem_fedEdges_iff e).mp he
    exact ⟨hleft _ (List.mem_of_mem_filter hs), hright.target ht⟩
  have hbody : ∀ e ∈ bodyEdges m a b, e.source.Beyond n ∧ e.target.Beyond n :=
    fun e he => hright.edges e (List.mem_of_mem_filter he)
  -- stage by stage: whatever is put in has both its ends beyond the number
  have hjoined : (joined m a b).Beyond n := by
    have hstage := (hleft.insertAllKeeping agree_fedEdges hfed).insertAll hbody
    unfold joined
    split
    · exact hstage.insertAll (hright.edgesAt hjoin .start)
    · exact hstage
  rw [append_eq]
  show (opened m a b).1.Beyond n
  unfold opened
  split
  · exact hjoined.insertAllKeeping (agree_edgesAt _ _ _) (hright.edgesAt State.beyond_start .start)
  · exact hjoined

end Append

end Beyond

/-- Tables on numbers drawn one after the other **have none in common**. One bound is
enough, with the one table below it and the other above. -/
theorem Within.disjoint (ha : a.Within n) (hb : b.Beyond n) : a.Disjoint b := by
  intro k hk hk'
  have hle := ha k hk
  have hlt := hb _ hk' k rfl
  omega

end Automaton

end TreeGrammar
