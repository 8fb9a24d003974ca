/-
What operators lose, whatever the states are called.

A collision names three states, and these depend on the numbers that have been drawn
before. Its **label** does not: on tables that are renamings of each other an operator
loses the same labels in the same order. So it makes sense to say which labels the
operators of an expression lose, once its tables are known up to renaming
(`Regex.lost`).
-/
import TreeGrammar.Proofs.Compile.Standard

set_option autoImplicit false

namespace TreeGrammar

/-- The labels of the edges that an operator **loses**, in order. -/
def Built.lost (b : Built) : List Label := b.collisions.map Collision.label

namespace Automaton

variable {f : State → State} {a b c d : Automaton} {n m : Nat}

open Appending

namespace Mirrors

/-- Edges that are put in between renamed states, unless one is there, are lost **under
the same labels**. -/
theorem labels_insertAllKeeping (h : Mirrors f a b) (hf : Function.Injective f) (es : List Edge) :
    (b.insertAllKeeping (es.map (Edge.recode f))).2.map Collision.label =
      (a.insertAllKeeping es).2.map Collision.label := by
  -- the fold is followed from any pair of mirrored tables with the same labels lost
  have hfold : ∀ acc acc' : Automaton × List Collision, Mirrors f acc.1 acc'.1 →
      acc'.2.map Collision.label = acc.2.map Collision.label →
      ((es.map (Edge.recode f)).foldl Automaton.insertKeeping acc').2.map Collision.label =
        (es.foldl Automaton.insertKeeping acc).2.map Collision.label := by
    clear h
    induction es with
    | nil => exact fun _ _ _ hlabels => hlabels
    | cons e es ih =>
        intro acc acc' hacc hlabels
        refine ih _ _ (hacc.insertKeeping hf e) ?_
        have htarget : acc'.1.target (e.recode f).source (e.recode f).label =
            (acc.1.target e.source e.label).map f := hacc.target_eq hf e.source e.label
        unfold Automaton.insertKeeping
        rw [htarget]
        cases acc.1.target e.source e.label with
        | none => exact hlabels
        | some kept =>
            have hkept : f kept = (e.recode f).target ↔ kept = e.target := hf.eq_iff
            simp only [Option.map_some, hkept]
            split
            · exact hlabels
            · rw [List.map_append, List.map_append, hlabels]
              rfl
  exact hfold (a, []) (b, []) h rfl

/-- Mirrored tables lose **the same labels** when they are put beside mirrored ones. The
states in a collision are renamed; its label is not. -/
theorem lost_merge (h : Mirrors f a b) (h' : Mirrors f (right n a c) (right m b d))
    (hf : Recoding f) : (Automaton.merge m b d).lost = (Automaton.merge n a c).lost := by
  have hlabels := h.labels_insertAllKeeping hf.injective (right n a c).edges
  rw [← h'.edges_eq] at hlabels
  exact hlabels

/-- Put after each other, mirrored tables lose the same labels as well, if the
joins correspond. -/
theorem lost_append (h : Mirrors f a b) (h' : Mirrors f (right n a c) (right m b d))
    (hf : Recoding f) (hjoin : f (join n a c) = join m b d) :
    (Automaton.append m b d).lost = (Automaton.append n a c).lost := by
  have hfed := (h.left hf hjoin).labels_insertAllKeeping hf.injective (fedEdges n a c)
  rw [← fedEdges_eq h h' hf hjoin] at hfed
  have hopened : (opened m b d).2.map Collision.label = (opened n a c).2.map Collision.label := by
    have hrow := h'.edgesAt_leaving hf.injective .start .start
    rw [hf.start] at hrow
    unfold opened
    rw [h.isSome_epsilon_start_eq hf]
    split
    · rw [hrow]
      exact (joined h h' hf hjoin).labels_insertAllKeeping hf.injective _
    · rfl
  rw [Built.lost, Built.lost, append_eq, append_eq, List.map_append, List.map_append, hfed, hopened]

end Mirrors

namespace Recodes

/-- So recoded tables lose the same labels in a sequence, whatever numbers were
drawn before. -/
theorem lost_append (h : a.Recodes b) (h' : c.Recodes d) (hwa : a.Within n) (hwc : c.Within n)
    (hwb : b.Within m) (hwd : d.Within m) :
    (Automaton.append m b d).lost = (Automaton.append n a c).lost := by
  obtain ⟨f, hf, hfa, hfc, hfj⟩ := exists_operands h h' hwa hwc hwb hwd
  exact hfa.lost_append hfc hf hfj

theorem lost_merge (h : a.Recodes b) (h' : c.Recodes d) (hwa : a.Within n) (hwc : c.Within n)
    (hwb : b.Within m) (hwd : d.Within m) :
    (Automaton.merge m b d).lost = (Automaton.merge n a c).lost := by
  obtain ⟨f, hf, hfa, hfc, -⟩ := exists_operands h h' hwa hwc hwb hwd
  exact hfa.lost_merge hfc hf

end Recodes

end Automaton

open Automaton

/-! ## Expressions -/

namespace Regex

/-- The labels that are lost where the **two parts** of an expression are put together;
what is lost inside the parts does not count. -/
def lost (r : Regex) : List Label :=
  match r with
  | seq _ _ => (r.table 0).lost
  | alt _ _ => (r.table 0).lost
  | _ => []

end Regex

namespace Made

variable {r q : Regex} {a b : Automaton} {cs ds : List Collision} {n : Nat}

/-- Whatever tables the parts of a sequence have, **the same labels** are lost where
they are put together. -/
theorem lost_append (ha : Made r a cs) (hb : Made q b ds) (hwa : a.Within n) (hwb : b.Within n) :
    (append n a b).lost = (Regex.seq r q).lost := by
  have hr := r.orderly_table 0
  have hq := q.orderly_table (r.table 0).drawn
  exact ((ha.recodes_table 0).lost_append (hb.recodes_table _) hwa hwb
    (hr.automaton.mono hq.le_drawn).within hq.automaton.within).symm

/-- What two made tables lose in a choice is what the expressions say: any tables made
for them would lose it. -/
theorem lost_merge (ha : Made r a cs) (hb : Made q b ds) (hwa : a.Within n) (hwb : b.Within n) :
    (merge n a b).lost = (Regex.alt r q).lost := by
  have hr := r.orderly_table 0
  have hq := q.orderly_table (r.table 0).drawn
  exact ((ha.recodes_table 0).lost_merge (hb.recodes_table _) hwa hwb
    (hr.automaton.mono hq.le_drawn).within hq.automaton.within).symm

end Made

end TreeGrammar
