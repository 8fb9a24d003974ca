/-
Limits on grammars and documents.

Grammars and documents come from outside, so compiling the one and walking the other is
bounded. Each bound is on one **quantity**; a count may reach its bound and not pass it.
-/

set_option autoImplicit false

namespace TreeGrammar

/-- The greatest values that are let through. -/
structure Limits where
  /-- Nesting depth of elements in a document. -/
  documentDepth : Nat
  /-- Nesting depth of a pattern. -/
  patternDepth : Nat
  /-- States of one automaton. -/
  automatonStates : Nat
  /-- Blocks of one interleave. -/
  interleaveBlocks : Nat
  /-- Element declarations of one grammar. -/
  elements : Nat
deriving DecidableEq, Repr

namespace Limits

/-- The bounds used where none are asked for. -/
def standard : Limits where
  documentDepth := 1000
  patternDepth := 100
  automatonStates := 100000
  interleaveBlocks := 64
  elements := 100000

/-- Bounds for input that is not trusted. -/
def strict : Limits where
  documentDepth := 100
  patternDepth := 20
  automatonStates := 10000
  interleaveBlocks := 16
  elements := 10000

/-- Bounds for input that is known. -/
def permissive : Limits where
  documentDepth := 10000
  patternDepth := 1000
  automatonStates := 1000000
  interleaveBlocks := 1024
  elements := 1000000

instance : Inhabited Limits := ⟨standard⟩

/-- What a bound is on. -/
inductive Quantity where
  | documentDepth
  | patternDepth
  | automatonStates
  | interleaveBlocks
  | elements
deriving DecidableEq, Repr

/-- The quantity as a message names it. -/
def Quantity.label : Quantity → String
  | .documentDepth => "Document depth"
  | .patternDepth => "Pattern depth"
  | .automatonStates => "Automaton state count"
  | .interleaveBlocks => "Interleave block count"
  | .elements => "Element count"

/-- The bound on a quantity. -/
def bound (l : Limits) : Quantity → Nat
  | .documentDepth => l.documentDepth
  | .patternDepth => l.patternDepth
  | .automatonStates => l.automatonStates
  | .interleaveBlocks => l.interleaveBlocks
  | .elements => l.elements

/-- A count that passes its bound. -/
structure Excess where
  /-- What was counted. -/
  quantity : Quantity
  /-- The count. -/
  found : Nat
  /-- The bound it passes. -/
  bound : Nat
deriving DecidableEq, Repr

/-- The message of an excess. -/
def Excess.message (e : Excess) : String :=
  s!"{e.quantity.label} {e.found} exceeds maximum {e.bound}"

/-- Lets a count through **up to and including** its bound. -/
def check (l : Limits) (q : Quantity) (n : Nat) : Except Excess Unit :=
  if l.bound q < n then .error ⟨q, n, l.bound q⟩ else .ok ()

theorem check_eq_ok_iff (l : Limits) (q : Quantity) (n : Nat) :
    l.check q n = .ok () ↔ n ≤ l.bound q := by
  unfold check
  split <;> simp <;> omega

end Limits

end TreeGrammar
