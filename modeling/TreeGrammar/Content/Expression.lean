/-
Expressions: compiled contents that words can be offered to.

An expression is one automaton, or one for each block of an interleave. Reading a word
moves a cursor, which is a state of the one automaton or a state of each block. In an
interleave a token moves one block only; where several could take it, a **tie-break**
says which. A tie-break is a guess: the grammar does not say whose a token is, and the
first block that takes it may not be the one that needs it.
-/
import TreeGrammar.Automaton.Walk
import TreeGrammar.Compile.Content

set_option autoImplicit false

namespace TreeGrammar

/-! ## Ties -/

/-- A block of an interleave that could take the token at hand. -/
structure Candidate where
  /-- Which block. -/
  index : Nat
  /-- Whether its content may end before the token. -/
  finished : Bool
deriving DecidableEq, Repr

/-- Picks the block that takes a token, out of a list of candidates that is not empty.
An answer that is none of them stands for no block. -/
abbrev TieBreak := Token → List Candidate → Option Nat

namespace TieBreak

/-- The leftmost block. -/
def firstMatch : TieBreak := fun _ candidates => candidates.head?.map Candidate.index

/-- The leftmost block that may not end yet; without one, the leftmost. -/
def preferUnfinished : TieBreak := fun _ candidates =>
  ((candidates.find? fun c => !c.finished).or candidates.head?).map Candidate.index

end TieBreak

/-! ## Expressions -/

/-- A **compiled content**. -/
inductive Expression where
  /-- Regular content. -/
  | single (a : Automaton)
  /-- The blocks of an interleave, and who wins a tie. -/
  | interleave (blocks : List Automaton) (tieBreak : TieBreak)

/-- A place in the reading of a word. -/
inductive Cursor where
  /-- In regular content. -/
  | single (s : State)
  /-- In each block of an interleave. -/
  | interleaved (states : List State)
deriving DecidableEq, Repr, Inhabited

/-- A candidate together with the state that the token takes it to. -/
structure Offer where
  /-- The block. -/
  candidate : Candidate
  /-- Where the block would go. -/
  target : State
deriving DecidableEq, Repr

/-- The blocks that could take a token, from left to right; the first block has the
given index. -/
def offers (t : Token) (index : Nat) : List Automaton → List State → List Offer
  | a :: as, s :: ss =>
      match a.consume s t with
      | none => offers t (index + 1) as ss
      | some target => ⟨⟨index, a.isFinished s⟩, target⟩ :: offers t (index + 1) as ss
  | _, _ => []

namespace Expression

/-- The expression of a compiled content; ties go to the leftmost block. -/
def ofCompiled : Compiled → Expression
  | .single a => single a
  | .interleave blocks => interleave blocks .firstMatch

/-- The same expression with another tie-break. -/
def withTieBreak (tieBreak : TieBreak) : Expression → Expression
  | single a => single a
  | interleave blocks _ => interleave blocks tieBreak

/-- Whether the expression is an interleave. -/
def isInterleave : Expression → Bool
  | single _ => false
  | interleave _ _ => true

/-- The automata, one for each block. -/
def automata : Expression → List Automaton
  | single a => [a]
  | interleave blocks _ => blocks

/-- The tokens that occur **anywhere** in the content, in order of discovery. -/
def allowedTokens (e : Expression) : List Token :=
  (e.automata.flatMap Automaton.reachableTokens).eraseDups

/-- Whether a token occurs anywhere in the content. -/
def isAllowed (e : Expression) (t : Token) : Bool := decide (t ∈ e.allowedTokens)

/-- Whether text occurs anywhere in the content. -/
def isTextAllowed (e : Expression) : Bool := e.isAllowed .text

/-- Whether every word of allowed tokens is as good as every other, the empty one apart;
never said of an interleave. -/
def isUnconstrained : Expression → Bool
  | single a => a.isUnconstrained
  | interleave _ _ => false

/-! ## Reading -/

/-- The cursor before the first token. -/
def initial : Expression → Cursor
  | single _ => .single .start
  | interleave blocks _ => .interleaved (blocks.map fun _ => .start)

/-- The cursor **after a token**, or `none` if the token is rejected. A cursor of the
other kind takes nothing. -/
def advance (e : Expression) (c : Cursor) (t : Token) : Option Cursor :=
  match e, c with
  | single a, .single s => (a.consume s t).map .single
  | interleave blocks tieBreak, .interleaved states =>
      match offers t 0 blocks states with
      | [] => none
      | os => do
          let chosen ← tieBreak t (os.map Offer.candidate)
          let offer ← os.find? fun o => o.candidate.index == chosen
          return .interleaved (states.set chosen offer.target)
  | _, _ => none

/-- Whether the content may end at a cursor. -/
def isFinishedAt (e : Expression) (c : Cursor) : Bool :=
  match e, c with
  | single a, .single s => a.isFinished s
  | interleave blocks _, .interleaved states =>
      (blocks.zip states).all fun p => p.1.isFinished p.2
  | _, _ => false

/-- The tokens that can be taken at a cursor, each once. -/
def expectedAt (e : Expression) (c : Cursor) : List Token :=
  match e, c with
  | single a, .single s => a.expected s
  | interleave blocks _, .interleaved states =>
      ((blocks.zip states).flatMap fun p => p.1.expected p.2).eraseDups
  | _, _ => []

/-- The cursor after a word, or `none` if a token of it is rejected. -/
def run (e : Expression) (c : Cursor) : List Token → Option Cursor
  | [] => some c
  | t :: w =>
      match e.advance c t with
      | none => none
      | some next => e.run next w

/-- Whether a word is **accepted**: no token is rejected, and the content may end after
the last. -/
def accepts (e : Expression) (w : List Token) : Bool :=
  match e.run e.initial w with
  | none => false
  | some c => e.isFinishedAt c

end Expression

end TreeGrammar
