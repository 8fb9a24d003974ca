/-
Content automata: the rules of a table.

No edge enters `start` and none leaves `fin`; the only epsilon edge that may leave
`start` enters `fin`, which says that the whole content may be empty; and no epsilon
edges run in a circle. The check lists every breach in words.
-/
import TreeGrammar.Automaton.Walk

set_option autoImplicit false

namespace TreeGrammar.Automaton

/-- A breach of the rules. -/
inductive Breach where
  /-- An edge leaves `fin`. -/
  | leavesFin
  /-- The edge enters `start`. -/
  | entersStart (e : Edge)
  /-- The epsilon edge of `start` enters the state. -/
  | startEpsilon (target : State)
  /-- The epsilon edges from the state run in a circle. -/
  | epsilonCircle (s : State)
deriving DecidableEq, Repr

/-- The breach in words. -/
def Breach.message : Breach → String
  | leavesFin => "END has outgoing edges"
  | entersStart e => s!"{e.source.render} --{e.label.render}--> START"
  | startEpsilon target => s!"START epsilon targets {target.render} instead of END"
  | epsilonCircle s => s!"epsilon cycle through {s.render}"

/-- The breaches that an edge is by itself. -/
def edgeBreaches (e : Edge) : List Breach :=
  (if e.target = .start then [.entersStart e] else [])
    ++ if e.source = .start ∧ e.label = .epsilon ∧ e.target ≠ .fin then [.startEpsilon e.target]
      else []

/-- Whether the epsilon edges from a state never end: each state of its chain has one. -/
def circles (a : Automaton) (s : State) : Bool :=
  (a.chain s).all fun r => (a.epsilon r).isSome

/-- Every **breach** of the rules. -/
def breaches (a : Automaton) : List Breach :=
  (if (a.leaving .fin).isEmpty then [] else [.leavesFin])
    ++ a.edges.flatMap edgeBreaches
    ++ (a.states.filter a.circles).map .epsilonCircle

/-- Every breach in words. -/
def problems (a : Automaton) : List String := a.breaches.map Breach.message

end TreeGrammar.Automaton
