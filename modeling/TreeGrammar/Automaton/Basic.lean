/-
Content automata: the table.

A content automaton is a deterministic transition table between a state `start` and a
state `fin`. Every other state has a number. A state has at most one edge of each label,
and one label is epsilon, the edge that is taken without a token. How a table is run is
in `TreeGrammar.Automaton.Walk`, which rules it has to keep in
`TreeGrammar.Automaton.Check`.
-/
import TreeGrammar.OrderedTable
import TreeGrammar.Token

set_option autoImplicit false

namespace TreeGrammar

/-- A state of a content automaton. -/
inductive State where
  /-- Where every run begins. -/
  | start
  /-- Where every accepting run ends. -/
  | fin
  /-- Any other state. -/
  | id (number : Nat)
deriving DecidableEq, Repr, Inhabited

namespace State

/-- Whether the state is `start` or `fin`, which all automata share. -/
def isShared : State → Bool
  | id _ => false
  | _ => true

/-- The state's name in messages. -/
def render : State → String
  | start => "START"
  | fin => "END"
  | id number => s!"s{number}"

end State

/-- What an edge takes. -/
inductive Label where
  /-- One token. -/
  | token (t : Token)
  /-- Nothing. -/
  | epsilon
deriving DecidableEq, Repr, Inhabited

namespace Label

/-- The token that an edge of the label takes. -/
def token? : Label → Option Token
  | token t => some t
  | epsilon => none

/-- The label in messages. -/
def render : Label → String
  | token t => t.render
  | epsilon => "ε"

end Label

/-- An edge of a table. -/
structure Edge where
  /-- The state it leaves. -/
  source : State
  /-- What it takes. -/
  label : Label
  /-- The state it enters. -/
  target : State
deriving DecidableEq, Repr, Inhabited

/-- The edge on a line of its own. -/
def Edge.render (e : Edge) : String :=
  s!"{e.source.render} --{e.label.render}--> {e.target.render}\n"

/-- The edges that leave one state: a target for each label. -/
abbrev Row := OrderedTable Label State

/-- A **content automaton**: a row of edges for each state that has any. Rows stand in
the order in which their states first got an edge. -/
structure Automaton where
  /-- The rows. -/
  rows : OrderedTable State Row
deriving DecidableEq

namespace Automaton

/-- The table without edges, which accepts nothing. -/
def blank : Automaton := ⟨.empty⟩

instance : Inhabited Automaton := ⟨blank⟩

/-! ## Reading the table -/

/-- The edges that leave a state, as pairs of label and target. -/
def leaving (a : Automaton) (s : State) : List (Label × State) :=
  match a.rows.get? s with
  | none => []
  | some row => row.entries

/-- The tokens of the edges that leave a state. -/
def tokensLeaving (a : Automaton) (s : State) : List Token :=
  (a.leaving s).filterMap fun p => p.1.token?

/-- The target of the edge that leaves a state under a label. -/
def target (a : Automaton) (s : State) (l : Label) : Option State :=
  (a.rows.get? s).bind fun row => row.get? l

/-- The state that a state's epsilon edge enters. -/
def epsilon (a : Automaton) (s : State) : Option State := a.target s .epsilon

/-- All edges, row by row. -/
def edges (a : Automaton) : List Edge :=
  a.rows.entries.flatMap fun p => p.2.entries.map fun q => ⟨p.1, q.1, q.2⟩

/-- All states, each once: the two shared ones, then source and target of every edge. -/
def states (a : Automaton) : List State :=
  ([State.start, State.fin] ++ a.edges.flatMap fun e => [e.source, e.target]).eraseDups

/-- The number of states. -/
def stateCount (a : Automaton) : Nat := a.states.length

/-- The table, one edge on a line. -/
def render (a : Automaton) : String := String.join (a.edges.map Edge.render)

/-- Whether both tables hold the same edges, **in whatever order**. -/
def sameEdges (a b : Automaton) : Bool :=
  a.rows.size == b.rows.size && a.rows.entries.all fun p =>
    match b.rows.get? p.1 with
    | none => false
    | some row => p.2.sameEntries row

/-! ## Changing the table -/

/-- The table with an edge put in; an edge of the same source and label is **replaced**
in its place. -/
def insert (a : Automaton) (source : State) (label : Label) (target : State) : Automaton :=
  ⟨a.rows.insert source (((a.rows.get? source).getD .empty).insert label target)⟩

/-- The table of the edges, put in one after the other. -/
def ofEdges (es : List Edge) : Automaton :=
  es.foldl (fun a e => a.insert e.source e.label e.target) blank

/-- The table without one edge. A row that loses its last edge goes with it. -/
def remove (a : Automaton) (source : State) (label : Label) : Automaton :=
  match a.rows.get? source with
  | none => a
  | some row =>
      let rest := row.erase label
      if rest.isEmpty then ⟨a.rows.erase source⟩ else ⟨a.rows.insert source rest⟩

/-- The table in which every edge that entered `old` enters `new`. -/
def redirect (a : Automaton) (old new : State) : Automaton :=
  ⟨a.rows.mapValues fun _ row => row.mapValues fun _ s => if s = old then new else s⟩

/-- The edges renamed state by state, put in one after the other. -/
def rename (a : Automaton) (f : State → State) : Automaton :=
  ofEdges (a.edges.map fun e => ⟨f e.source, e.label, f e.target⟩)

/-- A write is read back, and changes no other edge. -/
theorem target_insert (a : Automaton) (s s' : State) (l l' : Label) (t : State) :
    (a.insert s l t).target s' l' = if s = s' ∧ l = l' then some t else a.target s' l' := by
  unfold insert target
  rw [OrderedTable.get?_insert]
  by_cases hs : s = s'
  · subst hs
    cases h : a.rows.get? s with
    | none => simp [OrderedTable.get?_insert]
    | some row => simp [OrderedTable.get?_insert]
  · simp [hs]

end Automaton

end TreeGrammar
