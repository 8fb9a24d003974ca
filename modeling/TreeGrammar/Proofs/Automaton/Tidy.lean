/-
Tables without empty rows.

A row that has lost its last edge says nothing about runs, and the view does not show
it. It shows where a table is written down row by row: a state that no edge leaves or
enters has no number there. So the operators are shown to leave no such row, one lemma
each; the fold lemmas reduce each operator to one edge put in or taken out.
-/
import TreeGrammar.Proofs.Compile.Made

set_option autoImplicit false

namespace TreeGrammar

namespace Automaton

/-- Some edge leaves **every state that has a row**. -/
def Tidy (a : Automaton) : Prop := ∀ s ∈ a.rows.keys, ∃ l t, a.target s l = some t

variable {a b : Automaton} {s t : State} {l : Label}

/-- The states that have a row are states of the table. -/
theorem Tidy.mem_states (h : a.Tidy) (hs : s ∈ a.rows.keys) : s ∈ a.states := by
  obtain ⟨l, t, ht⟩ := h s hs
  exact source_mem_states ht

theorem tidy_blank : blank.Tidy := fun _ hs => absurd hs List.not_mem_nil

/-- Row by row: **no row is empty**. The list of rows is looked up state by state, so
both forms say the same. -/
theorem tidy_iff : a.Tidy ↔ ∀ s row, a.rows.get? s = some row → row.isEmpty = false := by
  constructor
  · intro h s row hrow
    obtain ⟨l, t, ht⟩ := h s (OrderedTable.mem_keys_of_get? hrow)
    rw [target, hrow, Option.bind_some] at ht
    exact row.isEmpty_eq_false_iff.mpr ⟨l, t, ht⟩
  · intro h s hs
    obtain ⟨row, hrow⟩ := (OrderedTable.mem_keys_iff _ s).mp hs
    obtain ⟨l, t, ht⟩ := row.isEmpty_eq_false_iff.mp (h s row hrow)
    refine ⟨l, t, ?_⟩
    rw [target, hrow, Option.bind_some, ht]

/-! ## One edge -/

/-- An edge that is put in **leaves no row empty**. Its own row has the edge, and the others
are as before. -/
theorem Tidy.insert (h : a.Tidy) (s : State) (l : Label) (t : State) : (a.insert s l t).Tidy := by
  rw [tidy_iff] at h ⊢
  intro s' row' hrow'
  rw [Automaton.insert, OrderedTable.get?_insert] at hrow'
  by_cases heq : s = s'
  · rw [if_pos heq, Option.some.injEq] at hrow'
    subst hrow'
    apply (OrderedTable.isEmpty_eq_false_iff _).mpr
    refine ⟨l, t, ?_⟩
    rw [OrderedTable.get?_insert, if_pos rfl]
  · rw [if_neg heq] at hrow'
    exact h s' row' hrow'

/-- A row is gone as soon as its last edge is. -/
theorem Tidy.remove (h : a.Tidy) (s : State) (l : Label) : (a.remove s l).Tidy := by
  unfold Automaton.remove
  cases hrow : a.rows.get? s with
  | none => exact h
  | some row =>
      rw [tidy_iff] at h ⊢
      intro s' row' hrow'
      by_cases hempty : (row.erase l).isEmpty = true
      · simp only [hempty, if_true, OrderedTable.get?_erase] at hrow'
        by_cases heq : s = s'
        · rw [if_pos heq] at hrow'
          exact absurd hrow' (by simp)
        · rw [if_neg heq] at hrow'
          exact h s' row' hrow'
      · simp only [hempty, if_false, Bool.false_eq_true, OrderedTable.get?_insert] at hrow'
        by_cases heq : s = s'
        · rw [if_pos heq, Option.some.injEq] at hrow'
          rw [← hrow', Bool.eq_false_iff]
          exact hempty
        · rw [if_neg heq] at hrow'
          exact h s' row' hrow'

/-- Redirecting changes what is in the rows, and leaves their number of edges. -/
theorem Tidy.redirect (h : a.Tidy) (old new : State) : (a.redirect old new).Tidy := by
  intro s hs
  have hold : s ∈ a.rows.keys := by
    obtain ⟨row, hrow⟩ := (OrderedTable.mem_keys_iff _ s).mp hs
    rw [Automaton.redirect, OrderedTable.get?_mapValues] at hrow
    obtain ⟨row', hrow', -⟩ := Option.map_eq_some_iff.mp hrow
    exact OrderedTable.mem_keys_of_get? hrow'
  obtain ⟨l, t, ht⟩ := h s hold
  exact ⟨l, _, by rw [target_redirect, ht, Option.map_some]⟩

/-! ## Lists of edges -/

/-- So do the edges of a list, put in one after another. -/
theorem Tidy.insertAll (h : a.Tidy) (es : List Edge) : (a.insertAll es).Tidy := by
  induction es generalizing a with
  | nil => exact h
  | cons e es ih => exact ih (h.insert e.source e.label e.target)

theorem tidy_ofEdges (es : List Edge) : (ofEdges es).Tidy := tidy_blank.insertAll es

/-- Where an edge gives way nothing is changed, so no row becomes empty. -/
theorem Tidy.insertAllKeeping (h : a.Tidy) (es : List Edge) : (a.insertAllKeeping es).1.Tidy := by
  have hstep : ∀ acc : Automaton × List Collision, acc.1.Tidy → ∀ e,
      (insertKeeping acc e).1.Tidy := by
    intro acc hacc e
    unfold insertKeeping
    cases acc.1.target e.source e.label with
    | none => exact hacc.insert e.source e.label e.target
    | some kept =>
        by_cases hk : kept = e.target
        · simpa [hk] using hacc
        · simpa [hk] using hacc
  have hfold : ∀ acc : Automaton × List Collision, acc.1.Tidy →
      (es.foldl insertKeeping acc).1.Tidy := by
    induction es with
    | nil => exact fun _ hacc => hacc
    | cons e es ih => exact fun acc hacc => ih _ (hstep acc hacc e)
  exact hfold (a, []) h

/-! ## Operators -/

/-- A copy is built edge by edge from nothing, so it is tidy **whether or not the
table was**. -/
theorem tidy_copy (a : Automaton) (n : Nat) : (a.copy n).automaton.Tidy := tidy_ofEdges _

theorem Tidy.optional (h : a.Tidy) : a.optional.Tidy := h.insert .start .epsilon .fin

/-- The rows of both tables are kept, and **each comes in with its edges**. The second table
need not be tidy, since it is copied first. -/
theorem Tidy.merge (h : a.Tidy) (n : Nat) (b : Automaton) : (a.merge n b).automaton.Tidy :=
  h.insertAllKeeping _

/-- Each stage of one table after another puts edges in, once the end is moved. None of
the stages leaves a row behind that it has emptied. -/
theorem Tidy.append (h : a.Tidy) (n : Nat) (b : Automaton) : (a.append n b).automaton.Tidy := by
  have hleft : ∀ join, ((a.remove .start .epsilon).redirect .fin join).Tidy := fun join =>
    (h.remove .start .epsilon).redirect .fin join
  unfold Automaton.append
  dsimp only
  split
  · refine Tidy.insertAllKeeping ?_ _
    split
    · exact (((hleft _).insertAllKeeping _).insertAll _).insertAll _
    · exact ((hleft _).insertAllKeeping _).insertAll _
  · split
    · exact (((hleft _).insertAllKeeping _).insertAll _).insertAll _
    · exact ((hleft _).insertAllKeeping _).insertAll _

theorem Tidy.plus (h : a.Tidy) (n : Nat) : (a.plus n).automaton.Tidy := by
  have hlooped : ∀ again es, ((((a.remove .start .epsilon).redirect .fin again).insertAll
      es).insert again .epsilon .fin).Tidy := fun again es =>
    (((h.remove .start .epsilon).redirect .fin again).insertAll es).insert again .epsilon .fin
  unfold Automaton.plus
  dsimp only
  split
  · exact (hlooped _ _).optional
  · exact hlooped _ _

end Automaton

open Automaton

/-- A table that is made has **no empty row**. By induction on how it is made; every
operator ends by putting edges in, and rows are dropped when emptied. -/
theorem Made.tidy {r : Regex} {a : Automaton} {cs : List Collision} (h : Made r a cs) : a.Tidy := by
  induction h with
  | one => exact tidy_blank.insert .start .epsilon .fin
  | token x => exact tidy_blank.insert .start (.token x) .fin
  | seq n _ _ _ _ iha _ => exact iha.append n _
  | alt n _ _ _ _ iha _ => exact iha.merge n _
  | optional _ ih => exact ih.optional
  | kleene n _ _ ih => exact (ih.plus n).optional
  | plus n _ _ ih => exact ih.plus n
  | copy n _ _ => exact tidy_copy _ n

end TreeGrammar
