/-
The tokens of a list of children.

Elements and runs of text count as tokens, comments do not. A run is text that only
comments interrupt; it counts once, at its first node, however many nodes it has, and it
is blank if all of them are. Each token stands in a **slot**, which says which nodes it
covers.
-/
import TreeGrammar.Markup.Node
import TreeGrammar.Token

set_option autoImplicit false

namespace TreeGrammar

/-- A token among children, and where it stands. -/
structure Slot where
  /-- The index of the first node it covers. -/
  index : Nat
  /-- The index of the last node it covers. -/
  last : Nat
  /-- The token. -/
  token : Token
  /-- Whether it is a run of blank text. -/
  blank : Bool
deriving DecidableEq, Repr

namespace Slot

/-- The run that a text node starts. -/
def startRun (index : Nat) (s : String) : Slot := ⟨index, index, .text, isBlank s⟩

/-- The run with one more text node. -/
def extendRun (run : Slot) (index : Nat) (s : String) : Slot :=
  { run with last := index, blank := run.blank && isBlank s }

/-- The slots of nodes, the first of which has the given index; `run` is the run of text
that is still open before them. -/
def ofNodesFrom (index : Nat) (run : Option Slot) : List Node → List Slot
  | [] => run.toList
  | .comment _ :: rest => ofNodesFrom (index + 1) run rest
  | .text s :: rest =>
      let longer := match run with
        | none => startRun index s
        | some run => run.extendRun index s
      ofNodesFrom (index + 1) (some longer) rest
  | .element tag _ _ :: rest =>
      run.toList ++ ⟨index, index, .element tag, false⟩ :: ofNodesFrom (index + 1) none rest

/-- The **slots** of a list of children, in order. -/
def ofNodes (children : List Node) : List Slot := ofNodesFrom 0 none children

end Slot

/-- The tokens of an element's children. -/
def Element.childTokens (e : Element) : List Token := (Slot.ofNodes e.children).map Slot.token

end TreeGrammar
