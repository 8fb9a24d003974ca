/-
Violations: what a document does against its schema.

A violation is a value that is collected, never a reason to stop. It says what kind it
is, in words what happened, and as much of the place as is known where it is made: the
element, the offending child and its index, what would have been taken instead, and the
path from the root.
-/
import TreeGrammar.Token

set_option autoImplicit false

namespace TreeGrammar

/-- The kinds of violation. -/
inductive ViolationKind where
  /-- The child is allowed nowhere in the content. -/
  | notAllowed
  /-- The child is allowed in the content, and not at its place. -/
  | misplaced
  /-- The children end before the content is complete. -/
  | incomplete
  /-- The element is not declared. -/
  | unknownElement
  /-- The attribute is not declared for its element. -/
  | unknownAttribute
  /-- The element nests deeper than the bound. -/
  | tooDeep
deriving DecidableEq, Repr

/-- Whether a violation of the kind is about a single child. -/
def ViolationKind.isStructural : ViolationKind → Bool
  | .notAllowed => true
  | .misplaced => true
  | _ => false

/-- Something that a document does against its schema. -/
structure Violation where
  /-- The kind. -/
  kind : ViolationKind
  /-- What happened, in words. -/
  message : String
  /-- The path of the element, where it is known. -/
  path : Option String := none
  /-- The tag of the element, where it is known. -/
  element : Option String := none
  /-- The offending child. -/
  token : Option Token := none
  /-- The index of the offending child, or how many children there were. -/
  index : Option Nat := none
  /-- What would have been taken instead. -/
  expected : List Token := []
deriving DecidableEq, Repr

namespace Violation

/-- A child that the content does not take at its place. -/
def unexpectedChild (kind : ViolationKind) (t : Token) (index : Nat) : Violation where
  kind := kind
  message := match kind with
    | .notAllowed =>
        s!"{t.describe} is not allowed in this content model (position {index + 1})"
    | _ =>
        s!"{t.describe} is allowed in this content model, but not at position {index + 1}"
  token := some t
  index := some index

/-- Children that end before the content is complete. -/
def incompleteContent (count : Nat) : Violation where
  kind := .incomplete
  message := s!"content is not complete after {count} children"
  index := some count

/-- The part of the text that names what would have been taken instead. -/
def renderExpected : List Token → String
  | [] => ""
  | [t] => s!". Token {t.render} expected."
  | ts => ". Tokens (" ++ " | ".intercalate (ts.map Token.render) ++ ") expected."

/-- The whole **text** of the violation. -/
def render (v : Violation) : String :=
  let place := match v.element with
    | none => ""
    | some tag => s!"<{tag}>: "
  let path := match v.path with
    | none => ""
    | some path => "\nPath: " ++ path
  place ++ v.message ++ renderExpected v.expected ++ path

end Violation

end TreeGrammar
