/-
What composed steps have from their parts.

Compiling is composed of few kinds of steps: a result, a failure, an operator that draws
from the session, and one step after another. A property that the first three have, and
the fourth has where both its parts do, **composes**; and then it is one of all terms if
it is one of references (`Composes.term`), and of all patterns if it is one of bounded
terms (`Composes.pattern`).
-/
import TreeGrammar.Proofs.Compile.Rerun

set_option autoImplicit false

namespace TreeGrammar.Compiling

open Automaton

/-- The property is one of simple steps, and of composed ones **if it is one of
their parts**. -/
structure Composes (P : ∀ α : Type, Compiling α → Prop) : Prop where
  pure {α : Type} (x : α) : P α (Pure.pure x)
  bind {α β : Type} {m : Compiling α} {f : α → Compiling β} (hm : P α m) (hf : ∀ x, P β (f x)) :
    P β (m >>= f)
  failHere {α : Type} (cause : CompileCause) : P α (Compiling.failHere cause)
  ofExcept {α : Type} (e : Except Failure α) : P α (Compiling.ofExcept e)
  build {f : Nat → Built} (hf : ∀ n, n ≤ (f n).drawn) : P Automaton (Compiling.build f)

namespace Composes

variable {P : ∀ α : Type, Compiling α → Prop} {book : Rulebook}
  {resolve : String → Compiling Automaton}

/-- A check that may fail at the current place is composed from the same parts. -/
theorem orFailHere {α : Type} (h : Composes P) (e : Except CompileCause α) :
    P α (Compiling.orFailHere e) := by
  cases e with
  | ok x => exact h.pure x
  | error cause => exact h.failHere cause

/-- Blocks that are compiled one by one, each put to those before. By induction on the
blocks that are left, with the table so far as the state of the loop. -/
theorem loop {group : List Term → Term} {loop : Automaton → List Term → Compiling Automaton}
    {put : Nat → Automaton → Automaton → Built} {rest : List Term} (h : Composes P)
    (hloop : BlockLoop resolve group loop put) (hput : ∀ n a b, n ≤ (put n a b).drawn)
    (hblocks : ∀ t ∈ rest, P _ (Compiling.term resolve t)) (before : Automaton) :
    P _ (loop before rest) := by
  induction rest generalizing before with
  | nil =>
      rw [hloop.nil]
      exact h.pure before
  | cons t rest ih =>
      rw [List.forall_mem_cons] at hblocks
      rw [hloop.cons]
      apply h.bind hblocks.1
      intro b
      exact h.bind (h.build fun n => hput n before b) (ih hblocks.2)

/-- A term has the property **if its references do**. By induction on the term.
Properties of runs that compose are shown for the compiler in this way, each without a
walk through its code. -/
theorem term (h : Composes P) (hresolve : ∀ name, P _ (resolve name)) (t : Term) :
    P _ (Compiling.term resolve t) := by
  match t with
  | .token x | .sequence [] =>
      rw [Compiling.term]
      exact h.pure _
  | .sequence (block :: rest) =>
      rw [(blockLoop_sequence resolve).first]
      exact h.bind (h.term hresolve block) (h.loop (blockLoop_sequence resolve)
        (fun n a b => Nat.le_of_lt (lt_drawn_append n a b)) fun t ht => h.term hresolve t)
  | .choice [] =>
      rw [Compiling.term]
      exact h.failHere .emptyChoice
  | .choice (block :: rest) =>
      rw [(blockLoop_choice resolve).first]
      exact h.bind (h.term hresolve block)
        (h.loop (blockLoop_choice resolve) le_drawn_merge fun t ht => h.term hresolve t)
  | .optional block =>
      rw [Compiling.term]
      exact h.bind (h.term hresolve block) fun a => h.pure a.optional
  | .kleene block | .plus block =>
      rw [Compiling.term]
      exact h.bind (h.term hresolve block) fun a => h.build fun n => Nat.le_succ n
  | .ref name =>
      rw [Compiling.term]
      exact hresolve name
termination_by t
decreasing_by
  all_goals first
    | (have hsize := List.sizeOf_lt_of_mem ht; simp; omega)
    | (simp; omega)
    | simp

/-! ## Contents and patterns -/

/-- The blocks of an interleave are compiled one after the other. -/
theorem blocks (h : Composes P) (hterm : ∀ t, P _ (boundedTerm book t)) (ts : List Term) :
    P _ (Compiling.blocks book ts) := by
  induction ts with
  | nil =>
      rw [Compiling.blocks]
      exact h.pure []
  | cons t ts ih =>
      rw [Compiling.blocks]
      exact h.bind (hterm t) fun a => h.bind ih fun as => h.pure (a :: as)

/-- A content is a term or blocks, so what holds of compiling terms holds of contents.
The two forms differ in how their parts are put together only. -/
theorem content (h : Composes P) (hterm : ∀ t, P _ (boundedTerm book t)) (c : Content) :
    P _ (Compiling.content book c) := by
  cases c with
  | term t =>
      rw [Compiling.content]
      exact h.bind (hterm t) fun a => h.pure (Compiled.single a)
  | interleave ts =>
      rw [Compiling.content]
      exact h.bind (h.blocks hterm ts) fun as => h.pure (Compiled.interleave as)

/-- A pattern has the property **if bounded terms do**. The choice between a lone
reference and a lowered content is made once, here. -/
theorem pattern (h : Composes P) (hterm : ∀ t, P _ (boundedTerm book t)) (p : Pattern) :
    P _ (Compiling.pattern book p) := by
  rw [Compiling.pattern]
  apply h.bind (h.orFailHere _)
  intro normal
  obtain ⟨found, hfound⟩ := exists_wholeContent_eq book [] normal
  rw [hfound]
  apply h.bind (h.orFailHere found)
  intro whole
  exact h.bind (h.ofExcept _) (h.content hterm)

end Composes

end TreeGrammar.Compiling
