/-
The element graph of a schema.

An edge leads from every declared element to each element that its content mentions,
declared or not. The questions asked of a schema as a whole, without a document at hand,
are questions about this graph: what contains what, where an element stands next to
text, and what can be reached from the start. Edges are listed twice, by the element
that they leave and by the name that they enter.
-/
import TreeGrammar.Discovery
import TreeGrammar.Schema.Basic

set_option autoImplicit false

namespace TreeGrammar

/-- A schema with its **element graph**. -/
structure ElementGraph where
  /-- The schema. -/
  schema : Schema
  /-- The child names of each declared element, in order of discovery. -/
  table : OrderedTable String (List String)
  /-- For each name that some content mentions, the declared elements that **use** it. -/
  users : OrderedTable String (List String)

namespace ElementGraph

/-- The index of users with a user entered under a name, unless it is there. -/
def addUser (user : String) (users : OrderedTable String (List String)) (name : String) :
    OrderedTable String (List String) :=
  let before := (users.get? name).getD []
  users.insert name (if user ∈ before then before else before ++ [user])

/-- The index of users with an element entered under each of its child names. -/
def enter (users : OrderedTable String (List String)) (p : String × List String) :
    OrderedTable String (List String) :=
  p.2.foldl (addUser p.1) users

/-- The graph of a schema. -/
def ofSchema (s : Schema) : ElementGraph :=
  let table := s.elements.mapValues fun _ r => r.childNames
  ⟨s, table, table.entries.foldl enter .empty⟩

/-! ## Edges -/

/-- The elements allowed directly **inside** an element; none, if it is not declared. -/
def children (g : ElementGraph) (tag : String) : List String := (g.table.get? tag).getD []

/-- The elements that allow an element **directly** inside them, in the order of
their declarations. -/
def parents (g : ElementGraph) (tag : String) : List String := (g.users.get? tag).getD []

/-- All names that some content mentions. -/
def mentioned (g : ElementGraph) : List String := g.table.values.flatten

/-! ## Paths -/

/-- The elements found **below** an element at any depth. -/
def descendants (g : ElementGraph) (tag : String) : List String :=
  depthFirst g.mentioned g.children [] (g.children tag).reverse

/-- The elements that contain an element at any depth. -/
def ancestors (g : ElementGraph) (tag : String) : List String :=
  depthFirst g.users.values.flatten g.parents [] (g.parents tag).reverse

/-- The start element and all that is below it; nothing, if no start is declared. -/
def reachableFromStart (g : ElementGraph) : List String :=
  match g.schema.start with
  | none => []
  | some start => (start :: g.descendants start).eraseDups

/-- The names that contents mention and no declaration gives, each with the element in
whose content it stands. -/
def undeclared (g : ElementGraph) : List (String × String) :=
  g.table.entries.flatMap fun p =>
    (p.2.filter fun name => !g.schema.declares name).map fun name => (p.1, name)

/-! ## The content of one element -/

/-- Whether text is allowed somewhere in the content of a declared element. -/
def allowsText (g : ElementGraph) (tag : String) : Bool :=
  (g.schema.rule? tag).any fun r => r.content.isTextAllowed

/-- Whether elements are allowed somewhere in the content of a declared element. Content
that is **mixed** allows both. -/
def allowsElements (g : ElementGraph) (tag : String) : Bool :=
  g.schema.declares tag && !(g.children tag).isEmpty

/-- Whether nothing is allowed in the content of a declared element. -/
def isEmpty (g : ElementGraph) (tag : String) : Bool :=
  (g.schema.rule? tag).any fun r => r.content.allowedTokens.isEmpty

/-- The parents that allow text beside an element. -/
def inlineParents (g : ElementGraph) (tag : String) : List String :=
  (g.parents tag).filter g.allowsText

/-- The parents that allow no text. -/
def structuralParents (g : ElementGraph) (tag : String) : List String :=
  (g.parents tag).filter fun parent => !g.allowsText parent

/-- The tokens that lead out of the start of an automaton, grouped by where they lead. -/
def branches (a : Automaton) : List (List Token) :=
  let steps : List (Token × State) := (a.leaving .start).filterMap fun p =>
    match p.1 with
    | .epsilon => none
    | .token t => some (t, p.2)
  (steps.map Prod.snd).eraseDups.map fun target =>
    (steps.filter fun q => q.2 == target).map Prod.fst

/-- The tokens that can **open** the content of an element: a group for each block of an
interleave, else a group for each way into the automaton. -/
def firstTokens (g : ElementGraph) (tag : String) : List (List Token) :=
  match g.schema.rule? tag with
  | none => []
  | some r =>
      match r.content with
      | .single a => branches a
      | .interleave blocks _ => blocks.map fun a => a.expected .start

end ElementGraph

end TreeGrammar
