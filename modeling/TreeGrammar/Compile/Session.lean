/-
A compilation in progress.

One session compiles many contents over the same definitions. It draws the numbers of
new states, keeps the automaton of every definition it has finished, knows which
definitions are being compiled, and collects a warning for every lost edge. A session
outlives a failure: what was drawn, kept and collected stays, and so do the names of the
definitions in whose midst it failed.
-/
import TreeGrammar.Automaton.Compose
import TreeGrammar.Failure

set_option autoImplicit false

namespace TreeGrammar

/-- A collision together with the place where it happened. -/
structure Warning where
  /-- The element or definition that was being compiled. -/
  location : Option String
  /-- The lost edge. -/
  collision : Collision
deriving DecidableEq, Repr

/-- The warning in words. -/
def Warning.message (w : Warning) : String :=
  let place := match w.location with
    | none => ""
    | some place => s!"<{place}>: "
  let c := w.collision
  place ++ s!"ambiguous transition on {c.label.render} from {c.state.render}: "
    ++ s!"kept {c.kept.render}, dropped {c.dropped.render}"

/-- The **state of a compilation**. -/
structure Session where
  /-- The automata of finished definitions. -/
  finished : OrderedTable String Automaton := .empty
  /-- The definitions being compiled, outermost first. -/
  inProgress : List String := []
  /-- How many state numbers have been drawn. The natural number stands for a **32-bit
  counter**: it is assumed that fewer than `2 ^ 32` numbers are drawn in a session, so
  that the counter never wraps around and no number is drawn twice. -/
  drawn : Nat := 0
  /-- What warnings and errors are to name as their place. -/
  location : Option String := none
  /-- The warnings so far. -/
  warnings : List Warning := []
deriving Inhabited

/-- A step of a compilation: it may fail, and the session goes on either way. -/
abbrev Compiling := ExceptT Failure (StateM Session)

namespace Session

/-- Lets an operator draw from the session and records what it lost. -/
def build (f : Nat → Built) : StateM Session Automaton := do
  let s ← get
  let b := f s.drawn
  set { s with
    drawn := b.drawn
    warnings := s.warnings ++ b.collisions.map (Warning.mk s.location) }
  return b.automaton

/-- Hands the warnings out and keeps none. -/
def takeWarnings : StateM Session (List Warning) :=
  modifyGet fun s => (s.warnings, { s with warnings := [] })

end Session

namespace Compiling

/-- Lets an operator draw from the session and records what it lost. -/
def build (f : Nat → Built) : Compiling Automaton := ExceptT.lift (Session.build f)

/-- Fails with a cause, **here**: at the session's location. -/
def failHere {α : Type} (cause : CompileCause) : Compiling α := do
  let s ← getThe Session
  throw (.compile { cause, location := s.location })

/-- Goes on with a result, or fails here with its cause. -/
def orFailHere {α : Type} : Except CompileCause α → Compiling α
  | .ok a => return a
  | .error cause => failHere cause

/-- Goes on with a result, or fails as it says. -/
def ofExcept {α : Type} : Except Failure α → Compiling α
  | .ok a => return a
  | .error e => throw e

end Compiling

end TreeGrammar
