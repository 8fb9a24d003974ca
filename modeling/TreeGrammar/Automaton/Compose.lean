/-
Content automata: putting them together.

Each construct of a content has an operator on automata. An operator may need new
states; it is given how many numbers have been **drawn** so far and says how many have
been drawn after it, so that one count runs through a whole compilation and no two
automata of it share a numbered state by accident.

Determinism is kept by a rule of precedence: an edge that is there stays, and a second
edge of the same source and label with another target is dropped. Each such loss is
recorded as a `Collision`.
-/
import TreeGrammar.Automaton.Walk

set_option autoImplicit false

namespace TreeGrammar

/-- A lost edge: the state already had an edge of the label. -/
structure Collision where
  /-- The state with the two edges. -/
  state : State
  /-- Their label. -/
  label : Label
  /-- The target of the edge that stays. -/
  kept : State
  /-- The target of the edge that is lost. -/
  dropped : State
deriving DecidableEq, Repr

/-- What an operator makes. -/
structure Built where
  /-- The automaton. -/
  automaton : Automaton
  /-- How many numbers have been drawn after it. As in a session, the natural number
  stands for a **32-bit counter**, and fewer than `2 ^ 32` numbers are assumed to be
  drawn. -/
  drawn : Nat
  /-- The edges lost on the way, in order. -/
  collisions : List Collision
deriving DecidableEq

namespace Automaton

/-! ## Constants -/

/-- Accepts the empty word and nothing else. -/
def emptyWord : Automaton := blank.insert .start .epsilon .fin

/-- Accepts the word of the one token and nothing else. -/
def single (t : Token) : Automaton := blank.insert .start (.token t) .fin

/-! ## Edges with precedence -/

/-- Puts an edge in **unless one is there**; a different target that is passed over
is recorded. -/
def insertKeeping (acc : Automaton × List Collision) (e : Edge) : Automaton × List Collision :=
  match acc.1.target e.source e.label with
  | none => (acc.1.insert e.source e.label e.target, acc.2)
  | some kept =>
      if kept = e.target then acc
      else (acc.1, acc.2 ++ [⟨e.source, e.label, kept, e.target⟩])

/-- Puts edges in one after the other, each unless one is there. -/
def insertAllKeeping (a : Automaton) (es : List Edge) : Automaton × List Collision :=
  es.foldl insertKeeping (a, [])

/-- Puts edges in one after the other; an edge that is there is replaced. -/
def insertAll (a : Automaton) (es : List Edge) : Automaton :=
  es.foldl (fun b e => b.insert e.source e.label e.target) a

/-- Copies of the edges of a row, leaving another state. -/
def edgesAt (s : State) (row : List (Label × State)) : List Edge :=
  row.map fun p => ⟨s, p.1, p.2⟩

/-! ## Copies -/

/-- The numbered states, in the order of `states`. -/
def inner (a : Automaton) : List State := a.states.filter fun s => !s.isShared

/-- The renaming that gives the states of a list the numbers that follow
`drawn`, in order. -/
def renumbering (drawn : Nat) (old : List State) (s : State) : State :=
  match old.idxOf? s with
  | none => s
  | some i => .id (drawn + 1 + i)

/-- The same automaton **on new states**. -/
def copy (drawn : Nat) (a : Automaton) : Built where
  automaton := a.rename (renumbering drawn a.inner)
  drawn := drawn + a.inner.length
  collisions := []

/-- Whether the automata have a numbered state in common. -/
def overlaps (a b : Automaton) : Bool := b.inner.any fun s => decide (s ∈ a.inner)

/-- The second automaton, on new states if it has one in common with the first. -/
def apart (drawn : Nat) (a b : Automaton) : Built :=
  if a.overlaps b then copy drawn b else ⟨b, drawn, []⟩

/-! ## Operators -/

/-- **One after the other.** What ended `a` enters a new state, the join, which opens
like `b`. The edges that open `b` are also given to the states of `a` that would pass to
the join by epsilon edges, and to `start` if `a` may be empty, each time after the edges
that are there. -/
def append (drawn : Nat) (a b : Automaton) : Built :=
  let right := apart drawn a b
  let join := State.id (right.drawn + 1)
  let left := (a.remove .start .epsilon).redirect .fin join
  let opening := right.automaton.leaving .start
  let feeders := left.states.filter fun s => decide (s ≠ join) && left.epsilonReaches s join
  let fed := left.insertAllKeeping
    (feeders.flatMap fun s => edgesAt s (opening.filter fun p => decide (p.1 ≠ .epsilon)))
  let body := fed.1.insertAll (right.automaton.edges.filter fun e => decide (e.source ≠ .start))
  let joined :=
    if left.edges.any fun e => decide (e.target = join) then body.insertAll (edgesAt join opening)
    else body
  let opened :=
    if (a.epsilon .start).isSome then joined.insertAllKeeping (edgesAt .start opening)
    else (joined, [])
  ⟨opened.1, right.drawn + 1, fed.2 ++ opened.2⟩

/-- **One or the other.** The edges of `b` are put in after those of `a`. -/
def merge (drawn : Nat) (a b : Automaton) : Built :=
  let right := apart drawn a b
  let merged := a.insertAllKeeping right.automaton.edges
  ⟨merged.1, right.drawn, merged.2⟩

/-- **Once or not at all.** -/
def optional (a : Automaton) : Automaton := a.insert .start .epsilon .fin

/-- **At least once.** What ended `a` enters a new state that opens like `a` and may end. -/
def plus (drawn : Nat) (a : Automaton) : Built :=
  let again := State.id (drawn + 1)
  let left := (a.remove .start .epsilon).redirect .fin again
  let looped := (left.insertAll (edgesAt again (left.leaving .start))).insert again .epsilon .fin
  ⟨if (a.epsilon .start).isSome then looped.optional else looped, drawn + 1, []⟩

/-- **Any number of times.** -/
def kleene (drawn : Nat) (a : Automaton) : Built :=
  let repeated := plus drawn a
  { repeated with automaton := repeated.automaton.optional }

end Automaton

end TreeGrammar
