/-
Validating trees and documents.

A validator walks a tree and collects every violation. A document must moreover start
with the start element, if its schema has one; its tree is walked whether it does or
not. What several walks find can be gathered in one ledger.
-/
import TreeGrammar.Validation.Walk

set_option autoImplicit false

namespace TreeGrammar

/-- What walks have found so far, and how they are made. -/
structure Ledger where
  /-- How undeclared names are taken. -/
  mode : ValidationMode := .strict
  /-- The bounds. -/
  limits : Limits := .standard
  /-- The violations, in order. -/
  violations : List Violation := []
  /-- How many elements were visited. -/
  visited : Nat := 0

namespace Ledger

/-- Adds a violation at a path. -/
def add (l : Ledger) (v : Violation) (path : String) : Ledger :=
  { l with violations := l.violations ++ [{ v with path := some path }] }

/-- Forgets what was found. -/
def clear (l : Ledger) : Ledger := { l with violations := [], visited := 0 }

/-- Adds what a walk has found. -/
def record (l : Ledger) (found : List Inspection) : Ledger :=
  { l with
    violations := l.violations ++ found.flatMap Inspection.violations
    visited := l.visited + found.length }

/-- **Walks a tree** and adds what is found; in the mode that skips, nothing. -/
def walk (l : Ledger) (s : Schema) (root : Element) : Ledger :=
  if l.mode = .skip then l
  else
    let scope : Scope := { schema := s, mode := l.mode, limits := l.limits }
    l.record (scope.walk [Visit.root root])

end Ledger

/-- Validates against a schema. -/
structure Validator where
  /-- The schema. -/
  schema : Schema
  /-- How undeclared names are taken. -/
  mode : ValidationMode := .strict
  /-- The bounds. -/
  limits : Limits := schema.limits

namespace Validator

/-- An empty ledger. -/
def ledger (v : Validator) : Ledger := { mode := v.mode, limits := v.limits }

/-- The violations of a **tree**. -/
def validate (v : Validator) (root : Element) : List Violation :=
  (v.ledger.walk v.schema root).violations

/-- The violation of a root that is not the start element. -/
def wrongRoot (tag start : String) : Violation where
  kind := .notAllowed
  message := s!"root element '{tag}' is not the start element '{start}'"
  element := some tag

/-- An empty ledger, or one with the violation of a wrong root. -/
def ledgerForRoot (v : Validator) (tag : String) : Ledger :=
  match v.schema.start with
  | none => v.ledger
  | some start =>
      if v.mode = .skip ∨ tag = start then v.ledger else v.ledger.add (wrongRoot tag start) "/"

/-- The violations of a **document**. -/
def validateDocument (v : Validator) (root : Element) : List Violation :=
  ((v.ledgerForRoot root.tag).walk v.schema root).violations

end Validator

end TreeGrammar
