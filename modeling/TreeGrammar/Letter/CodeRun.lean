/-
Runs of characters.

A property of characters is a list of runs of codes; a character has the property if one
of the runs holds its code.
-/

set_option autoImplicit false

namespace TreeGrammar

/-- A run of characters whose codes follow one another. -/
structure CodeRun where
  /-- The code of the first character. -/
  first : Nat
  /-- The code of the last. -/
  last : Nat

/-- Whether a run holds a code. -/
def CodeRun.contains (r : CodeRun) (code : Nat) : Bool := r.first ≤ code && code ≤ r.last

/-- Whether a character lies in one of the **runs**. -/
def inRuns (runs : List CodeRun) (c : Char) : Bool := runs.any fun r => r.contains c.toNat

end TreeGrammar
