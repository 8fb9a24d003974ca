/-
Where a token can be inserted.

The search tries the boundaries of a word one after the other, from one of its sides,
and takes the first at which the word with the token put in is accepted. Where the
content takes every word of its tokens there is nothing to try, and the boundary on that
side is taken at once.
-/
import TreeGrammar.Content.Expression

set_option autoImplicit false

namespace TreeGrammar

/-- The side from which boundaries are tried. -/
inductive Side where
  | first
  | last
deriving DecidableEq, Repr

/-- The boundaries of a word of the given length, as seen from a side. -/
def Side.boundaries (side : Side) (length : Nat) : List Nat :=
  match side with
  | first => List.range (length + 1)
  | last => (List.range (length + 1)).reverse

/-- The boundary that lies on the side itself. -/
def Side.outermost (side : Side) (length : Nat) : Nat :=
  match side with
  | first => 0
  | last => length

namespace Expression

/-- Whether the word is accepted with the token put in at a boundary. -/
def acceptsWith (e : Expression) (w : List Token) (t : Token) (i : Nat) : Bool :=
  e.accepts (w.take i ++ t :: w.drop i)

/-- The first **boundary** from a side at which a token can be inserted into a word. -/
def insertion? (e : Expression) (w : List Token) (t : Token) (side : Side) : Option Nat :=
  if !e.isAllowed t then none
  else if e.isUnconstrained then some (side.outermost w.length)
  else (side.boundaries w.length).find? (e.acceptsWith w t)

end Expression

end TreeGrammar
