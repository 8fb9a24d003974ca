/-
Terms: patterns made ready for compilation.

A term has tokens where a pattern has names, and no interleave: an interleave can only
be the whole content of an element, which the type `Content` says. Lowering a pattern in
normal form to a content is where that rule and the bounds on depth and on blocks are
checked.
-/
import TreeGrammar.Token
import TreeGrammar.Pattern.Normal

set_option autoImplicit false

namespace TreeGrammar

/-- A regular expression over tokens with references to definitions. -/
inductive Term where
  | token (t : Token)
  | sequence (blocks : List Term)
  | choice (blocks : List Term)
  | optional (block : Term)
  | kleene (block : Term)
  | plus (block : Term)
  | ref (name : String)
deriving Repr, Inhabited

/-- The whole **content** of an element or a definition. -/
inductive Content where
  /-- Regular content. -/
  | term (t : Term)
  /-- Blocks of regular content, in any relative order. -/
  | interleave (blocks : List Term)
deriving Repr, Inhabited

namespace Term

mutual

/-- The term in the writing of its pattern. -/
def render : Term → String
  | token t => t.name
  | ref name => "%" ++ name
  | sequence blocks => Pattern.renderGroup ", " (renderAll blocks)
  | choice blocks => Pattern.renderGroup " | " (renderAll blocks)
  | optional block => render block ++ "?"
  | kleene block => render block ++ "*"
  | plus block => render block ++ "+"

/-- The terms, each in the writing of its pattern. -/
def renderAll : List Term → List String
  | [] => []
  | t :: ts => render t :: renderAll ts

end

mutual

/-- The pattern read as a term **as it stands**, without normalizing; `none` where an
interleave occurs. -/
def ofPattern? : Pattern → Option Term
  | .token name => some (token (Token.ofName name))
  | .ref name => some (ref name)
  | .sequence blocks => (ofPatterns? blocks).map sequence
  | .choice blocks => (ofPatterns? blocks).map choice
  | .optional block => (ofPattern? block).map optional
  | .kleene block => (ofPattern? block).map kleene
  | .plus block => (ofPattern? block).map plus
  | .interleave _ => none

/-- The patterns read as terms, if all of them can be. -/
def ofPatterns? : List Pattern → Option (List Term)
  | [] => some []
  | p :: ps => do
      let t ← ofPattern? p
      let ts ← ofPatterns? ps
      return t :: ts

end

mutual

/-- The term of a pattern that stands at the given **depth**, which must be within the
bound there and everywhere below. -/
def lower (limits : Limits) (depth : Nat) (p : Pattern) : Except Failure Term := do
  (limits.check .patternDepth depth).mapError .limit
  match p with
  | .token name => return token (Token.ofName name)
  | .ref name => return ref name
  | .sequence blocks => return sequence (← lowerAll limits (depth + 1) blocks)
  | .choice blocks => return choice (← lowerAll limits (depth + 1) blocks)
  | .optional block => return optional (← lower limits (depth + 1) block)
  | .kleene block => return kleene (← lower limits (depth + 1) block)
  | .plus block => return plus (← lower limits (depth + 1) block)
  | .interleave _ => throw (.compile { cause := .interleaveInside })

/-- The terms of patterns that stand at the given depth. -/
def lowerAll (limits : Limits) (depth : Nat) : List Pattern → Except Failure (List Term)
  | [] => return []
  | p :: ps => do
      let t ← lower limits depth p
      let ts ← lowerAll limits depth ps
      return t :: ts

end

end Term

namespace Content

/-- The content in the writing of its pattern. -/
def render : Content → String
  | term t => t.render
  | interleave blocks => Pattern.renderGroup " & " (Term.renderAll blocks)

/-- Whether the content is an interleave. -/
def isInterleave : Content → Bool
  | term _ => false
  | interleave _ => true

/-- The content of a pattern in normal form. The blocks of an interleave stand one
level deep. -/
def ofNormal (limits : Limits) : Pattern → Except Failure Content
  | .interleave blocks => do
      (limits.check .interleaveBlocks blocks.length).mapError .limit
      return interleave (← Term.lowerAll limits 1 blocks)
  | other => return term (← Term.lower limits 0 other)

/-- The **content of a pattern**: it is brought to normal form and lowered. -/
def ofPattern (limits : Limits) (p : Pattern) : Except Failure Content := do
  let normal ← p.normalize.mapError fun cause => .compile { cause }
  ofNormal limits normal

end Content

end TreeGrammar
