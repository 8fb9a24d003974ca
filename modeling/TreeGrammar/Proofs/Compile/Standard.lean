/-
The one table of an expression.

What is made for an expression depends on the numbers drawn before, and on which parts
are copies of tables kept from earlier uses. The **standard table** is made in one go,
from no parts that have been kept. Every table that is made for the expression is a
recoding of it (`Made.recodes_table`), so any two of them are recodings of each other.
-/
import TreeGrammar.Proofs.Automaton.Recoding
import TreeGrammar.Proofs.Compile.Upkeep

set_option autoImplicit false

namespace TreeGrammar

open Automaton

namespace Regex

/-- The **standard table** of an expression, with the numbers that follow `n`. -/
def table (n : Nat) : Regex → Built
  | one => ⟨emptyWord, n, []⟩
  | token x => ⟨single x, n, []⟩
  | seq r s =>
      let a := r.table n
      let b := s.table a.drawn
      append b.drawn a.automaton b.automaton
  | alt r s =>
      let a := r.table n
      let b := s.table a.drawn
      merge b.drawn a.automaton b.automaton
  | optional r =>
      let a := r.table n
      { a with automaton := a.automaton.optional }
  | kleene r =>
      let a := r.table n
      Automaton.kleene a.drawn a.automaton
  | plus r =>
      let a := r.table n
      Automaton.plus a.drawn a.automaton

/-- The standard table of an expression draws its numbers in order from the one it is
given. By recursion on the expression, as the table is built. -/
theorem orderly_table (r : Regex) (n : Nat) : (r.table n).Orderly n := by
  induction r generalizing n with
  | one => exact ⟨Nat.le_refl n, .emptyWord n⟩
  | token x => exact ⟨Nat.le_refl n, .single x n⟩
  | seq r s ihr ihs =>
      have hr := ihr n
      have hs := ihs (r.table n).drawn
      have hboth := (hr.automaton.mono hs.le_drawn).append hs.automaton
      exact ⟨(hr.le_drawn.trans hs.le_drawn).trans hboth.le_drawn, hboth.automaton⟩
  | alt r s ihr ihs =>
      have hr := ihr n
      have hs := ihs (r.table n).drawn
      have hboth := (hr.automaton.mono hs.le_drawn).merge hs.automaton
      exact ⟨(hr.le_drawn.trans hs.le_drawn).trans hboth.le_drawn, hboth.automaton⟩
  | optional r ih => exact ⟨(ih n).le_drawn, (ih n).automaton.optional⟩
  | kleene r ih =>
      have hrepeated := (ih n).automaton.kleene
      exact ⟨(ih n).le_drawn.trans hrepeated.le_drawn, hrepeated.automaton⟩
  | plus r ih =>
      have hrepeated := (ih n).automaton.plus
      exact ⟨(ih n).le_drawn.trans hrepeated.le_drawn, hrepeated.automaton⟩

end Regex

namespace Made

variable {r : Regex} {a b : Automaton} {cs ds : List Collision}

/-- A table that is made **is a recoding** of the standard one. By induction on how it
is made. The standard table is built with no session and no definitions, so it depends
on the expression alone. -/
theorem recodes_table (h : Made r a cs) (n : Nat) : a.Recodes (r.table n).automaton := by
  induction h generalizing n with
  | one => exact .refl (tidy_blank.insert .start .epsilon .fin)
  | token x => exact .refl (tidy_blank.insert .start (.token x) .fin)
  | @seq r s _ _ _ _ _ _ _ hwa hwb iha ihb =>
      have hr := r.orderly_table n
      have hs := s.orderly_table (r.table n).drawn
      exact (iha n).append (ihb _) hwa hwb (hr.automaton.mono hs.le_drawn).within
        hs.automaton.within
  | @alt r s _ _ _ _ _ _ _ hwa hwb iha ihb =>
      have hr := r.orderly_table n
      have hs := s.orderly_table (r.table n).drawn
      exact (iha n).merge (ihb _) hwa hwb (hr.automaton.mono hs.le_drawn).within hs.automaton.within
  | optional _ ih => exact (ih n).optional
  | @kleene r _ _ _ _ hwa ih => exact (ih n).kleene hwa (r.orderly_table n).automaton.within
  | @plus r _ _ _ _ hwa ih => exact (ih n).plus hwa (r.orderly_table n).automaton.within
  | copy m ha ih => exact (Recodes.copy ha.tidy m).symm.trans (ih n)

/-- Whatever session they are made in, two tables of one expression **are recodings** of
each other. Both are recodings of the standard table. -/
theorem recodes (h : Made r a cs) (h' : Made r b ds) : a.Recodes b :=
  (h.recodes_table 0).trans (h'.recodes_table 0).symm

end Made

end TreeGrammar
