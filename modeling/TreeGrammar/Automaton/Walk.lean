/-
Content automata: running the table.

A state is left by the edge of the token at hand; where there is none, by its epsilon
edge, and the token is tried again there. So what a state can do is said by its
**chain**, the state itself and what follows it by epsilon edges: the first state of the
chain with an edge for the token decides. A table has at most one epsilon edge a state,
so a chain with more states than the table has rows runs in a circle and shows nothing
new; it is cut there.
-/
import TreeGrammar.Automaton.Basic
import TreeGrammar.Discovery

set_option autoImplicit false

namespace TreeGrammar.Automaton

/-! ## Epsilon chains -/

/-- The first states of the chain of `s`, no more than a given number. -/
def chainUpTo (a : Automaton) : Nat → State → List State
  | 0, _ => []
  | n + 1, s =>
      match a.epsilon s with
      | none => [s]
      | some next => s :: a.chainUpTo n next

/-- The **chain** of a state: itself and the states that follow it by epsilon edges. -/
def chain (a : Automaton) (s : State) : List State := a.chainUpTo (a.rows.size + 1) s

/-- Whether `goal` follows `s` by one or more epsilon edges. -/
def epsilonReaches (a : Automaton) (s goal : State) : Bool :=
  match a.epsilon s with
  | none => false
  | some next => decide (goal ∈ a.chain next)

/-! ## Runs -/

/-- The state after a token: the first state of the chain with an edge for it decides. -/
def consume (a : Automaton) (s : State) (t : Token) : Option State :=
  (a.chain s).findSome? fun r => a.target r (.token t)

/-- Whether the content may end in a state: its chain leads to `fin`. -/
def isFinished (a : Automaton) (s : State) : Bool := decide (State.fin ∈ a.chain s)

/-- The tokens that a state can take, in the order of its chain and each once. -/
def expected (a : Automaton) (s : State) : List Token :=
  ((a.chain s).flatMap a.tokensLeaving).eraseDups

/-- The state after a word. -/
def run (a : Automaton) (s : State) : List Token → Option State
  | [] => some s
  | t :: w =>
      match a.consume s t with
      | none => none
      | some next => a.run next w

/-- Whether a word is **accepted**: a run over it from `start` ends where the content
may end. -/
def accepts (a : Automaton) (w : List Token) : Bool :=
  match a.run .start w with
  | none => false
  | some s => a.isFinished s

/-- Whether the empty word is accepted. -/
def isNullable (a : Automaton) : Bool := a.isFinished .start

/-! ## What can be reached -/

/-- The states that edges of any label reach from `start`, nearest first. -/
def reachableStates (a : Automaton) : List State :=
  breadthFirst a.states (fun s => (a.leaving s).map Prod.snd) [.start] [.start]

/-- The tokens of the edges that leave a reachable state, in order of discovery
and each once. -/
def reachableTokens (a : Automaton) : List Token :=
  (a.reachableStates.flatMap a.tokensLeaving).eraseDups

/-- Whether every non-empty word over the reachable tokens is accepted, where there are
any: every state that such words reach takes each of these tokens, and the content may
end there. -/
def isUnconstrained (a : Automaton) : Bool :=
  let allowed := a.reachableTokens
  let visited :=
    breadthFirst a.states (fun s => allowed.filterMap (a.consume s)) [.start] [.start]
  !allowed.isEmpty && visited.all fun s =>
    (decide (s = .start) || a.isFinished s) && allowed.all fun t => (a.consume s t).isSome

end TreeGrammar.Automaton
