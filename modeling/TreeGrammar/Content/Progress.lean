/-
Progress: offering tokens one at a time.

Progress is a cursor with its history: the tokens taken so far, how many were offered,
and a violation for each that was rejected. It is a value, so an earlier one can be gone
back to. A rejected token leaves the cursor where it is, and reading goes on with the
next.
-/
import TreeGrammar.Content.Expression
import TreeGrammar.Violation

set_option autoImplicit false

namespace TreeGrammar

/-- How far the reading of a word has come. -/
structure Progress where
  /-- The place reached. -/
  cursor : Cursor
  /-- The tokens taken. -/
  trace : List Token := []
  /-- How many tokens were offered, taken or not. -/
  offered : Nat := 0
  /-- A violation for each token that was rejected. -/
  errors : List Violation := []
deriving DecidableEq, Repr, Inhabited

/-- What became of a token. -/
inductive Outcome where
  /-- It was taken. -/
  | accepted (p : Progress)
  /-- It was rejected, for the given reason. -/
  | rejected (reason : Violation) (p : Progress)
deriving DecidableEq, Repr

namespace Outcome

/-- Whether the token was taken. -/
def isAccepted : Outcome → Bool
  | accepted _ => true
  | rejected _ _ => false

/-- The progress after the token. -/
def progress : Outcome → Progress
  | accepted p => p
  | rejected _ p => p

end Outcome

namespace Expression

/-- Progress before the first token. -/
def begin (e : Expression) : Progress := { cursor := e.initial }

/-- Why a token that was offered at a place is rejected there. -/
def rejection (e : Expression) (p : Progress) (t : Token) : Violation :=
  { Violation.unexpectedChild (if e.isAllowed t then .misplaced else .notAllowed) t p.offered with
    expected := e.expectedAt p.cursor }

/-- **Offers** a token. -/
def offer (e : Expression) (p : Progress) (t : Token) : Outcome :=
  match e.advance p.cursor t with
  | some c =>
      .accepted { p with cursor := c, trace := p.trace ++ [t], offered := p.offered + 1 }
  | none =>
      let reason := e.rejection p t
      .rejected reason { p with offered := p.offered + 1, errors := p.errors ++ [reason] }

/-- Whether the content may end here. -/
def isFinished (e : Expression) (p : Progress) : Bool := e.isFinishedAt p.cursor

/-- The tokens that can be taken here. -/
def expected (e : Expression) (p : Progress) : List Token := e.expectedAt p.cursor

/-- The violation of **ending** here, if the content may not end yet. -/
def finish (e : Expression) (p : Progress) : Option Violation :=
  if e.isFinished p then none
  else some { Violation.incompleteContent p.offered with expected := e.expected p }

/-- Progress after a whole word has been offered. -/
def offerAll (e : Expression) (p : Progress) (w : List Token) : Progress :=
  w.foldl (fun p t => (e.offer p t).progress) p

/-- Every violation of a word: one for each rejected token, and one if it ends too early. -/
def validate (e : Expression) (w : List Token) : List Violation :=
  let p := e.offerAll e.begin w
  p.errors ++ (e.finish p).toList

end Expression

end TreeGrammar
