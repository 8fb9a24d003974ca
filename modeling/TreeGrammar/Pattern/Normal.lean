/-
The normal form of a pattern.

Normalizing splices sequences into sequences and choices into choices, unwraps groups of
one block and collapses repetitions of repetitions. What has no sensible meaning is
refused instead: a choice or an interleave without blocks, an interleave inside an
interleave, and the repetitions `(x*)?`, `(x?)+` and `(x*)+`. Blocks are brought to
normal form first, from left to right, so the first fault met from the inside out is the
one reported.
-/
import TreeGrammar.Failure
import TreeGrammar.Pattern.Basic

set_option autoImplicit false

namespace TreeGrammar.Pattern

/-! ## What one block contributes to its group -/

/-- A block of a sequence: a sequence contributes its own blocks. -/
def spliceSequence : Pattern → Except CompileCause (List Pattern)
  | sequence blocks => .ok blocks
  | other => .ok [other]

/-- A block of a choice: a choice contributes its own blocks. -/
def spliceChoice : Pattern → Except CompileCause (List Pattern)
  | choice blocks => .ok blocks
  | other => .ok [other]

/-- A block of an interleave: it must not contain an interleave. -/
def spliceInterleave (block : Pattern) : Except CompileCause (List Pattern) :=
  if block.containsInterleave then .error .interleaveInInterleave else .ok [block]

/-! ## What a construct makes of its normal blocks -/

/-- A sequence of normal blocks; one block stands for itself. -/
def ofSequence : List Pattern → Pattern
  | [block] => block
  | blocks => sequence blocks

/-- A choice between normal blocks; one block stands for itself, and there must be one. -/
def ofChoice : List Pattern → Except CompileCause Pattern
  | [] => .error .emptyChoice
  | [block] => .ok block
  | blocks => .ok (choice blocks)

/-- An interleave of normal blocks; one block stands for itself, and there must be one. -/
def ofInterleave : List Pattern → Except CompileCause Pattern
  | [] => .error .emptyInterleave
  | [block] => .ok block
  | blocks => .ok (interleave blocks)

/-- Zero or one of a normal block. -/
def ofOptional : Pattern → Except CompileCause Pattern
  | optional block => .ok (optional block)
  | kleene _ => .error .optionalOfKleene
  | block => .ok (optional block)

/-- The block under all repetitions that stand outside. -/
def stripRepetitions : Pattern → Pattern
  | kleene block => stripRepetitions block
  | optional block => stripRepetitions block
  | plus block => stripRepetitions block
  | block => block

/-- Zero or more of a normal block, which swallows the repetitions under it. -/
def ofKleene (block : Pattern) : Pattern := kleene (stripRepetitions block)

/-- One or more of a normal block. -/
def ofPlus : Pattern → Except CompileCause Pattern
  | plus block => .ok (plus block)
  | optional _ => .error .plusOfOptional
  | kleene _ => .error .plusOfKleene
  | block => .ok (plus block)

/-! ## Normalizing -/

mutual

/-- The **normal form** of a pattern, or why it has none. -/
def normalize : Pattern → Except CompileCause Pattern
  | token name => .ok (token name)
  | ref name => .ok (ref name)
  | sequence blocks => do
      let flat ← normalizeBlocks spliceSequence blocks
      return ofSequence flat
  | choice blocks => do
      let flat ← normalizeBlocks spliceChoice blocks
      ofChoice flat
  | interleave blocks => do
      let flat ← normalizeBlocks spliceInterleave blocks
      ofInterleave flat
  | optional block => do
      let inner ← normalize block
      ofOptional inner
  | kleene block => do
      let inner ← normalize block
      return ofKleene inner
  | plus block => do
      let inner ← normalize block
      ofPlus inner

/-- The blocks of a group: each is brought to normal form and contributes what `splice`
says, before the next is looked at. -/
def normalizeBlocks (splice : Pattern → Except CompileCause (List Pattern)) :
    List Pattern → Except CompileCause (List Pattern)
  | [] => .ok []
  | block :: rest => do
      let inner ← normalize block
      let spliced ← splice inner
      let flat ← normalizeBlocks splice rest
      return spliced ++ flat

end

end TreeGrammar.Pattern
